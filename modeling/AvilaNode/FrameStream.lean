import AvilaNode.FrameCodec

/-! What the frame decoder yields of a stream that arrives in pieces. -/

namespace AvilaNode.FrameCodec

section

variable [Platform]

def stream (magic : Vector UInt8 4) (frames : List Frame) : List UInt8 := frames.flatMap (Frame.encode magic)

inductive Tail (magic : Vector UInt8 4) : List UInt8 → Prop
  | clean : Tail magic []
  | spoiled {bad : List UInt8} (hbad : Spoiled magic bad) (rest : List UInt8) : Tail magic (bad ++ rest)

def unread : List Frame → ℕ → List Frame × ℕ
  | [], held => ([], held)
  | frame :: frames, held => if frame.size ≤ held then unread frames (held - frame.size) else (frame :: frames, held)

def Paced : List Frame → ℕ → List (List UInt8) → Prop
  | _, _, [] => True
  | frames, held, chunk :: chunks =>
    (frames = [] ∨ held + chunk.length ≤ HEADER_LEN + MAX_MESSAGE_PAYLOAD) ∧
      Paced (unread frames (held + chunk.length)).1 (unread frames (held + chunk.length)).2 chunks

omit [Platform] in
theorem paced_nil (held : ℕ) (chunks : List (List UInt8)) : Paced [] held chunks := by
  induction chunks generalizing held with
  | nil => trivial
  | cons chunk chunks ih => exact ⟨.inl rfl, ih _⟩

omit [Platform] in
theorem unread_lt {frames frames' : List Frame} {frame : Frame} {held : ℕ}
    (h : (unread frames held).1 = frame :: frames') :
    (unread frames held).2 < frame.size := by
  induction frames generalizing held with
  | nil => cases h
  | cons first frames ih =>
    unfold unread at h ⊢
    split
    · rename_i hle
      rw [if_pos hle] at h
      exact ih h
    · rename_i hlt
      rw [if_neg hlt] at h
      obtain ⟨rfl, -⟩ := List.cons.inj h
      exact Nat.not_le.mp hlt

def Yields (frames : List Frame) (tail : List UInt8) (out : List (Except FrameError (Command × List UInt8))) : Prop :=
  ∃ errors, out = frames.map (fun frame => .ok frame.message) ++ errors ∧ (∀ o ∈ errors, ∃ e, o = .error e) ∧
    (errors = [] ↔ tail = [])

omit [Platform] in
theorem yields_append (taken frames : List Frame) (tail : List UInt8)
    (out : List (Except FrameError (Command × List UInt8))) :
    Yields (taken ++ frames) tail (taken.map (fun frame => .ok frame.message) ++ out) ↔ Yields frames tail out := by
  simp [Yields]

variable {frames : List Frame}

omit [Platform] in
theorem not_yields_error (hframes : frames ≠ []) (tail : List UInt8) (e : FrameError)
    (out : List (Except FrameError (Command × List UInt8))) : ¬ Yields frames tail (.error e :: out) := by
  rintro ⟨errors, h, -⟩
  obtain ⟨frame, frames, rfl⟩ := List.exists_cons_of_ne_nil hframes
  cases h

namespace FrameDecoder

variable {tail : List UInt8}

variable {d : FrameDecoder}

theorem drain_stream (frames : List Frame) {more : List UInt8} (hp : d.poisoned = false)
    (hbuf : d.buf ++ more = stream d.magic frames ++ tail) (hfits : d.buf.length ≤ HEADER_LEN + MAX_MESSAGE_PAYLOAD) :
    ∃ taken buf, frames = taken ++ (unread frames d.buf.length).1 ∧ buf.length = (unread frames d.buf.length).2 ∧
      buf ++ more = stream d.magic (unread frames d.buf.length).1 ++ tail ∧
      d.drain = (taken.map (fun frame => .ok frame.message) ++ ({ d with buf := buf } : FrameDecoder).drain.1,
        ({ d with buf := buf } : FrameDecoder).drain.2) := by
  induction frames generalizing d with
  | nil => exact ⟨[], d.buf, rfl, rfl, hbuf, rfl⟩
  | cons frame frames ih =>
    by_cases hle : frame.size ≤ d.buf.length
    · have hsplit : d.buf ++ more = frame.encode d.magic ++ (stream d.magic frames ++ tail) := by
        rw [hbuf, stream, List.flatMap_cons, List.append_assoc]
        rfl
      obtain ⟨rest, hrest⟩ : frame.encode d.magic <+: d.buf :=
        List.prefix_of_prefix_length_le (hsplit ▸ List.prefix_append _ _) (List.prefix_append d.buf more)
          (by rwa [Frame.length_encode])
      have hnext := next_frame_encoded hp hrest.symm hfits
      have hlen : d.buf.length = frame.size + rest.length := by rw [← hrest, List.length_append, Frame.length_encode]
      have hmore : rest ++ more = stream d.magic frames ++ tail := by
        rw [← hrest, List.append_assoc] at hsplit
        exact List.append_cancel_left hsplit
      obtain ⟨taken, buf, hframes, hheld, hb, hdrain⟩ := ih (d := { d with buf := rest }) hp hmore (by
        change rest.length ≤ _
        omega)
      have hunread : unread (frame :: frames) d.buf.length = unread frames rest.length := by
        rw [unread, if_pos hle, hlen, Nat.add_sub_cancel_left]
      rw [hunread]
      refine ⟨frame :: taken, buf, by rw [List.cons_append, ← hframes], hheld, hb, ?_⟩
      rw [drain_some hnext, hdrain]
      rfl
    · have hunread : unread (frame :: frames) d.buf.length =
        (frame :: frames, d.buf.length) := by rw [unread, if_neg hle]
      rw [hunread]
      exact ⟨[], d.buf, rfl, rfl, hbuf, rfl⟩

theorem receive_tail (htail : Tail d.magic tail) (hp : d.poisoned = false) (chunks : List (List UInt8))
    (hbuf : d.buf ++ chunks.flatten = tail) :
    Yields [] tail (d.drain.1 ++ (d.drain.2.receive chunks).1) := by
  cases htail with
  | clean =>
    obtain ⟨hb, hc⟩ := List.append_eq_nil_iff.mp hbuf
    have hquiet : ∀ chunks : List (List UInt8), chunks.flatten = [] → (d.receive chunks).1 = [] := by
      intro chunks hc
      induction chunks with
      | nil => rfl
      | cons chunk chunks ih =>
        obtain ⟨hchunk, hchunks⟩ := List.append_eq_nil_iff.mp hc
        have hfeed : d.feed chunk = d := by rw [feed, hchunk, List.append_nil]
        rw [receive, hfeed, drain_none (next_frame_short hp (by rw [hb]; decide))]
        exact ih hchunks
    rw [drain_none (next_frame_short hp (by rw [hb]; decide)), hquiet chunks hc]
    exact ⟨[], rfl, by simp, by simp⟩
  | @spoiled bad hbad rest =>
    have hne : bad ++ rest ≠ [] := by
      have := hbad.header_le
      intro h
      rw [(List.append_eq_nil_iff.mp h).1] at this
      exact absurd this (by decide)
    rcases next_frame_spoiled hbad hp hbuf with ⟨e, d', hn, hp'⟩ | ⟨hn, hlt⟩
    · rw [drain_error hn]
      refine ⟨[.error e] ++ (d'.receive chunks).1, rfl, fun out hout => ?_, by simp [hne]⟩
      rcases List.mem_append.mp hout with hout | hout
      · exact ⟨e, List.mem_singleton.mp hout⟩
      · exact receive_poisoned hp' chunks out hout
    · rw [drain_none hn]
      obtain ⟨hout, herrors⟩ := receive_spoiled hbad hp hlt chunks hbuf
      exact ⟨_, rfl, herrors, by simp [hne, hout]⟩

theorem receive_yields {frame : Frame} (htail : Tail d.magic tail) (hp : d.poisoned = false)
    (hlt : d.buf.length < frame.size) (chunks : List (List UInt8))
    (hbuf : d.buf ++ chunks.flatten = stream d.magic (frame :: frames) ++ tail) :
    Yields (frame :: frames) tail (d.receive chunks).1 ↔ Paced (frame :: frames) d.buf.length chunks := by
  induction chunks generalizing d frame frames with
  | nil =>
    have hl := congrArg List.length hbuf
    simp only [List.flatten_nil, List.append_nil, stream, List.flatMap_cons, List.length_append,
      Frame.length_encode] at hl
    omega
  | cons chunk chunks ih =>
    rw [List.flatten_cons, ← List.append_assoc] at hbuf
    have hlen : (d.feed chunk).buf.length = d.buf.length + chunk.length := List.length_append
    rw [Paced, ← hlen]
    by_cases hfits : (d.feed chunk).buf.length ≤ HEADER_LEN + MAX_MESSAGE_PAYLOAD
    · obtain ⟨taken, buf, hframes, hheld, hb, hdrain⟩ :=
        drain_stream (frame :: frames) (d := d.feed chunk) hp hbuf hfits
      rw [receive, hdrain, ← hheld]
      dsimp only
      rw [List.append_assoc]
      cases hleft : (unread (frame :: frames) (d.feed chunk).buf.length).1 with
      | nil =>
        rw [hleft] at hframes hb
        rw [hframes, yields_append]
        exact iff_of_true (receive_tail (d := { d.feed chunk with buf := buf }) htail hp chunks hb)
          ⟨.inr hfits, paced_nil _ _⟩
      | cons first rest =>
        rw [hleft] at hframes hb
        have hbl : buf.length < first.size := hheld ▸ unread_lt hleft
        have hwait := drain_none (next_frame_waits (d := { d.feed chunk with buf := buf }) hp
          (by rw [hb, stream, List.flatMap_cons, List.append_assoc]) hbl)
        rw [hframes, yields_append, hwait]
        exact (ih (d := { d.feed chunk with buf := buf }) htail hp hbl hb).trans
          ⟨fun h => ⟨.inr hfits, h⟩, fun h => h.2⟩
    · obtain ⟨e, d', hn, -⟩ := next_frame_over (Nat.not_le.mp hfits)
      rw [receive, drain_error hn]
      exact iff_of_false (not_yields_error (List.cons_ne_nil _ _) tail e _) fun h => by simp [hfits] at h

end FrameDecoder

/-- However a stream is cut, the decoder yields its frames, then errors from the first spoiled one on, as long
as no read leaves more than a frame's bytes behind a frame that is awaited. -/
theorem frames_received_iff {magic : Vector UInt8 4} (frames : List Frame) {tail : List UInt8}
    (htail : Tail magic tail)
    (chunks : List (List UInt8)) (hcut : chunks.flatten = stream magic frames ++ tail) :
    Yields frames tail ((FrameDecoder.new magic).receive chunks).1 ↔ Paced frames 0 chunks := by
  cases frames with
  | nil =>
    have h := FrameDecoder.receive_tail (d := .new magic) htail rfl chunks hcut
    have hquiet : (FrameDecoder.new magic).next_frame = (.ok none, .new magic) :=
      FrameDecoder.next_frame_short rfl (Nat.zero_lt_succ 23)
    rw [FrameDecoder.drain_none hquiet] at h
    exact iff_of_true h (paced_nil 0 chunks)
  | cons frame frames =>
    exact FrameDecoder.receive_yields (d := .new magic) htail rfl
      (by simp [FrameDecoder.new, Frame.size, HEADER_LEN]) chunks hcut

theorem full_frame_lost {magic : Vector UInt8 4} {full next : Frame}
    (hfull : full.payload.length = MAX_MESSAGE_PAYLOAD) :
    ¬ Yields [full, next] [] ((FrameDecoder.new magic).receive
      [(stream magic [full, next]).take (full.size - 1), (stream magic [full, next]).drop (full.size - 1)]).1 := by
  have hsize : full.size = HEADER_LEN + MAX_MESSAGE_PAYLOAD := by rw [Frame.size, hfull]
  have hpos : (FrameDecoder.new magic).buf.length < full.size := by
    rw [hsize]
    exact Nat.succ_pos _
  have hlen : (stream magic [full, next]).length = full.size + next.size := by simp [stream]
  rw [FrameDecoder.receive_yields .clean rfl hpos _ (by simp [FrameDecoder.new])]
  rintro ⟨-, hroom, -⟩
  have hheld : (FrameDecoder.new magic).buf.length + ((stream magic [full, next]).take (full.size - 1)).length =
      full.size - 1 := by
    rw [List.length_take, hlen, FrameDecoder.new, List.length_nil]
    omega
  have hunread : unread [full, next] (full.size - 1) =
    ([full, next], full.size - 1) := by rw [unread, if_neg (by omega)]
  rw [hheld, hunread, List.length_drop, hlen] at hroom
  simp only [List.cons_ne_nil, false_or, Frame.size, HEADER_LEN] at hroom
  omega

end

section Sample

attribute [local instance] Platform.sample

def sample_magic : Vector UInt8 4 := #v[0xfa, 0xbf, 0xb5, 0xda]

def sample_full : Frame := ⟨⟨Vector.replicate 12 0x61⟩, List.replicate MAX_MESSAGE_PAYLOAD 0, by decide, by simp⟩

def sample_next : Frame := ⟨⟨Vector.replicate 12 0x61⟩, [], by decide, by simp⟩

theorem full_frame_refused : ¬ ∀ (magic : Vector UInt8 4) (frames : List Frame) (tail : List UInt8), Tail magic tail →
    ∀ chunks : List (List UInt8), chunks.flatten = stream magic frames ++ tail →
      Yields frames tail ((FrameDecoder.new magic).receive chunks).1 := by
  intro h
  refine full_frame_lost List.length_replicate (h sample_magic [sample_full, sample_next] [] .clean _ ?_)
  rw [List.flatten_cons, List.flatten_cons, List.flatten_nil, List.append_nil, List.append_nil, List.take_append_drop]

theorem frames_received_one :
    Yields [sample_next] [] ((FrameDecoder.new sample_magic).receive [stream sample_magic [sample_next]]).1 :=
  (frames_received_iff _ .clean _ (by simp)).mpr
    ⟨.inr (by simp [stream, sample_next, Frame.size, HEADER_LEN]), trivial⟩

end Sample

end AvilaNode.FrameCodec
