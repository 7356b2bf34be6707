import AvilaNode.V2Handshake

/-! Whole streams of a peer, and when the receiver gives exactly their messages. -/

namespace AvilaNode.V2

open ByteStrings V2Channel

section

variable [Ciphers] {s : Bip324Cipher} {aad : List UInt8} {packets : List Packet} {ch : V2Channel}
  {rest : List UInt8} {d : ℕ}

structure Doomed (s : Bip324Cipher) (aad : List UInt8) (packets : List Packet) (d : ℕ) (ch : V2Channel)
    (rest : List UInt8) : Prop where
  pending : Pending s aad packets ch rest
  expected : ch.recv_aad = some (aad.drop d)
  nonempty : packets ≠ []
  short : aad.length ≤ MAX_GARBAGE_LEN
  pos : 0 < d
  le : d ≤ aad.length

theorem Doomed.drain (h : Doomed s aad packets d ch rest) (hfit : ∀ p ∈ packets, p.contents.length < 2 ^ 24)
    (fuel : ℕ) :
    (∃ e, V2Channel.drain (fuel + 1) ch = .error e) ∨
    ∃ ch', V2Channel.drain (fuel + 1) ch = .ok ([], ch') ∧ ch'.recv_buf.length < wanted ch' ∧
      Doomed s aad packets d ch' rest := by
  rw [V2Channel.drain, turn_eq h.pending.terminator]
  rcases h.pending.read_length hfit with ⟨p, -, -, herr⟩ | ⟨ch₁, hread, h₁, haad₁, -, -, hnone⟩
  · rw [herr]
    exact .inl ⟨_, rfl⟩
  rw [hread]
  have hbind : (Except.ok ch₁ : Except String V2Channel).bind V2Channel.read_packet = ch₁.read_packet := rfl
  rw [hbind]
  rcases h₁.place with ⟨hlen, -, -⟩ | ⟨p, back, rfl, hsome, hmax, -, hbuf⟩
  · right
    rw [V2Channel.read_packet, hlen]
    refine ⟨ch₁, rfl, ?_, h₁, by rw [haad₁, h.expected], h.nonempty, h.short, h.pos, h.le⟩
    rw [wanted, hlen]
    exact hnone hlen
  · by_cases hshort : ch₁.recv_buf.length < HEADER_LEN + p.contents.length + TAG_LEN
    · right
      rw [V2Channel.read_packet, hsome]
      simp only [if_pos hshort]
      refine ⟨ch₁, rfl, by rwa [wanted, hsome], h₁, by rw [haad₁, h.expected], h.nonempty, h.short, h.pos, h.le⟩
    · left
      have hlen : ((s.encrypt_packet p.contents aad p.ignore).1.drop LENGTH_LEN).length =
          HEADER_LEN + p.contents.length + TAG_LEN := by
        rw [List.length_drop, Bip324Cipher.length_encrypt_packet, EXPANSION]
        omega
      have hbytes := take_of_append hbuf (Nat.not_lt.mp hshort) hlen.ge
      rw [List.take_of_length_le hlen.le] at hbytes
      have hplain := Bip324Cipher.Paired.decrypt_packet_drop h₁.packet p.contents p.ignore h.short h.pos h.le
      rw [V2Channel.read_packet, hsome]
      simp only [if_neg hshort, hbytes, haad₁, h.expected, Option.getD_some, hplain]
      exact ⟨_, rfl⟩

theorem Doomed.feeds {chunks : List (List UInt8)} (h : Doomed s aad packets d ch chunks.flatten)
    (hfit : ∀ p ∈ packets, p.contents.length < 2 ^ 24) (hshort : ch.recv_buf.length < wanted ch) :
    ∃ e, ch.feeds chunks = .error e := by
  induction chunks generalizing ch with
  | nil => exact absurd (h.pending.finished hshort) h.nonempty
  | cons bytes chunks ih =>
    have hmore : Doomed s aad packets d { ch with recv_buf := ch.recv_buf ++ bytes } chunks.flatten :=
      ⟨Pending.more (by rw [← List.flatten_cons]; exact h.pending), h.expected, h.nonempty, h.short, h.pos, h.le⟩
    rcases hmore.drain hfit (ch.recv_buf ++ bytes).length with ⟨e, herr⟩ | ⟨ch', hok, hshort', h'⟩
    · exact ⟨e, feeds_error herr⟩
    · obtain ⟨e, herr⟩ := ih h' hshort'
      refine ⟨e, ?_⟩
      rw [feeds_ok hok, herr]
      rfl

/-- The stream of a peer that encrypts with `s`: garbage and its terminator, decoys, the version packet, packets. -/
structure PeerStream (s : Bip324Cipher) where
  garbage : List UInt8
  decoys : List (List UInt8)
  version : List UInt8
  packets : List Packet
  plain : Plain garbage s.send_terminator.toList
  fit : ∀ p ∈ decoys.map (⟨·, true⟩) ++ ⟨version, false⟩ :: packets, p.contents.length < 2 ^ 24

namespace PeerStream

def all (stream : PeerStream s) : List Packet :=
  stream.decoys.map (⟨·, true⟩) ++ ⟨stream.version, false⟩ :: stream.packets

def bytes (stream : PeerStream s) : List UInt8 :=
  stream.garbage ++ s.send_terminator.toList ++ sent s stream.garbage stream.all

def messages (stream : PeerStream s) : List Named := stream.packets.filterMap Packet.message

end PeerStream

def Gap (garbage_len received : ℕ) (chunks : List (List UInt8)) : Prop :=
  ∃ front back, chunks = front ++ back ∧ MAX_GARBAGE_LEN < received + front.flatten.length ∧
    received + front.flatten.length < garbage_len + GARBAGE_TERMINATOR_LEN

variable {chunks : List (List UInt8)} {ch' : V2Channel}

omit [Ciphers] in
theorem gap_cons {garbage_len received : ℕ} {bytes : List UInt8} (h : received ≤ MAX_GARBAGE_LEN) :
    Gap garbage_len received (bytes :: chunks) ↔ Gap garbage_len (received + bytes.length) chunks := by
  constructor
  · rintro ⟨front, back, heq, hlow, hhigh⟩
    cases front with
    | nil => simp at hlow; omega
    | cons first front =>
      obtain ⟨rfl, rfl⟩ := List.cons.inj heq
      rw [List.flatten_cons, List.length_append, ← Nat.add_assoc] at hlow hhigh
      exact ⟨front, back, rfl, hlow, hhigh⟩
  · rintro ⟨front, back, rfl, hlow, hhigh⟩
    refine ⟨bytes :: front, back, rfl, ?_, ?_⟩ <;>
      rw [List.flatten_cons, List.length_append, ← Nat.add_assoc] <;> assumption

variable {garbage term : List UInt8}

theorem Seeking.lost (hp : Plain garbage term) (h : Seeking garbage term (sent s garbage packets) d ch chunks.flatten)
    (hd : 0 < d) (hs : s.Paired ch.cipher) (hne : packets ≠ []) (hfit : ∀ p ∈ packets, p.contents.length < 2 ^ 24) : ∃
    e, ch.feeds chunks = .error e := by
  induction chunks generalizing ch with
  | nil =>
    have hlen := congrArg List.length h.buf
    have hopen := h.unfinished
    simp only [List.flatten_nil, List.append_nil, List.length_drop, List.length_append, hp.width] at hlen
    omega
  | cons bytes chunks ih =>
    rw [List.flatten_cons] at h
    by_cases hshort : d + (ch.recv_buf.length + bytes.length) < garbage.length + GARBAGE_TERMINATOR_LEN
    · obtain ⟨ch', d', hok, h', hc, ⟨-, rfl, -⟩ | ⟨rfl, -⟩⟩ := h.feed_short hp hshort
      · obtain ⟨e, herr⟩ := ih h' (hc ▸ hs)
        refine ⟨e, ?_⟩
        rw [feeds_ok hok, herr]
        rfl
      · exact absurd hd (lt_irrefl 0)
    · obtain ⟨ch', fuel, hfeed, hfuel, hsaw, hver, hlen, hc, haad, hbuf⟩ := h.feed_found hp (Nat.not_lt.mp hshort)
      have hdoom : Doomed s garbage packets d ch' chunks.flatten :=
        ⟨⟨hsaw, by rw [hc, hs.packet], .inl ⟨hlen, by rw [hc, hs.length], hbuf⟩⟩, haad, hne, hp.short, hd, h.start⟩
      obtain ⟨fuel, rfl⟩ : ∃ n, fuel = n + 1 := ⟨fuel - 1, by omega⟩
      rcases hdoom.drain hfit fuel with ⟨e, herr⟩ | ⟨ch'', hok, hshort', h'⟩
      · exact ⟨e, feeds_error (hfeed.trans herr)⟩
      · obtain ⟨e, herr⟩ := h'.feeds hfit hshort'
        refine ⟨e, ?_⟩
        rw [feeds_ok (hfeed.trans hok), herr]
        rfl

theorem Seeking.kept (hp : Plain garbage term) (h : Seeking garbage term (sent s garbage packets) 0 ch chunks.flatten)
    (hs : s.Paired ch.cipher) (hne : packets ≠ []) (hfit : ∀ p ∈ packets, p.contents.length < 2 ^ 24) :
    (Gap garbage.length ch.recv_buf.length chunks ∧ ∃ e, ch.feeds chunks = .error e) ∨
    ¬Gap garbage.length ch.recv_buf.length chunks ∧
      (((∃ p ∈ packets, MAX_CONTENTS_LEN < p.contents.length) ∧ ∃ e, ch.feeds chunks = .error e) ∨
      ∃ outs ch' s' aad' back, ch.feeds chunks = .ok (outs, ch') ∧ ch'.recv_buf.length < wanted ch' ∧
        Reached s garbage packets false s' aad' back ch' [] outs) := by
  induction chunks generalizing ch with
  | nil =>
    have hlen := congrArg List.length h.buf
    have hopen := h.unfinished
    simp only [List.flatten_nil, List.append_nil, List.drop_zero, List.length_append, hp.width] at hlen
    omega
  | cons bytes chunks ih =>
    rw [List.flatten_cons] at h
    rw [gap_cons h.held]
    by_cases hshort : 0 + (ch.recv_buf.length + bytes.length) < garbage.length + GARBAGE_TERMINATOR_LEN
    · obtain ⟨ch', d', hok, h', hc, ⟨-, rfl, hlen⟩ | ⟨-, htrim, hd'⟩⟩ := h.feed_short hp hshort
      · rw [← hlen, feeds_ok hok]
        rcases ih h' (hc ▸ hs) with ⟨hgap, e, herr⟩ |
          ⟨hgap, ⟨hbig, e, herr⟩ | ⟨outs, ch'', s', aad', back, hok', hshort', hr⟩⟩
        · exact .inl ⟨hgap, e, by rw [herr]; rfl⟩
        · exact .inr ⟨hgap, .inl ⟨hbig, e, by rw [herr]; rfl⟩⟩
        · exact .inr ⟨hgap, .inr ⟨outs, ch'', s', aad', back, by rw [hok']; rfl, hshort', hr⟩⟩
      · left
        refine ⟨⟨[], chunks, rfl, by simpa using htrim, by simpa using hshort⟩, ?_⟩
        obtain ⟨e, herr⟩ := h'.lost hp hd' (hc ▸ hs) hne hfit
        exact ⟨e, by rw [feeds_ok hok, herr]; rfl⟩
    · right
      have hgap : ¬Gap garbage.length (ch.recv_buf.length + bytes.length) chunks := by
        rintro ⟨front, back, -, -, hhigh⟩
        omega
      refine ⟨hgap, ?_⟩
      obtain ⟨ch', fuel, hfeed, hfuel, hsaw, hver, hlen, hc, haad, hbuf⟩ := h.feed_found hp (Nat.not_lt.mp hshort)
      rw [List.drop_zero] at haad
      have hpend : Pending s garbage packets ch' chunks.flatten :=
        ⟨hsaw, by rw [hc, hs.packet], .inl ⟨hlen, by rw [hc, hs.length], hbuf⟩⟩
      rcases hpend.drain (by rw [haad, Option.getD_some]) hfit hfuel with ⟨hbig, e, herr⟩ |
        ⟨outs, ch'', s', aad', back, hok, hshort', hr⟩
      · exact .inl ⟨hbig, e, feeds_error (hfeed.trans herr)⟩
      · rw [hver] at hr
        have hfit' : ∀ p ∈ back, p.contents.length < 2 ^ 24 := fun p hp => hfit p (hr.kept.mem hp)
        have hpend' : Pending s' aad' back ch'' (chunks.flatten ++ []) := by
          rw [List.append_nil]
          exact hr.pending
        rw [feeds_ok (hfeed.trans hok)]
        rcases hpend'.feeds hr.expected hfit' hshort' with ⟨⟨p, hp, hbig⟩, e, herr⟩ |
          ⟨outs', ch₂, s₂, aad₂, back₂, hok', hshort₂, hr'⟩
        · exact .inl ⟨⟨p, hr.kept.mem hp, hbig⟩, e, by rw [herr]; rfl⟩
        · exact .inr ⟨outs ++ outs', ch₂, s₂, aad₂, back₂, by rw [hok']; rfl, hshort₂, hr.trans hr'⟩

variable (stream : PeerStream s) {outs : List Named}

omit [Ciphers] in
theorem heard_all :
    heard false stream.all = stream.messages ↔ stream.decoys = [] ∨ decode_message_type stream.version = none := by
  rw [PeerStream.all, PeerStream.messages]
  cases hdecoys : stream.decoys with
  | nil => simp [heard]
  | cons decoy decoys =>
    have hnone : (decoys.map fun contents => (⟨contents, true⟩ : Packet)).filterMap Packet.message = [] := by
      rw [List.filterMap_eq_nil_iff]
      intro p hp
      obtain ⟨contents, -, rfl⟩ := List.mem_map.mp hp
      rfl
    have hversion : Packet.message ⟨stream.version, false⟩ = decode_message_type stream.version := rfl
    rw [List.map_cons, List.cons_append, heard, List.drop_one, List.tail_cons, List.filterMap_append, hnone,
      List.nil_append, List.filterMap_cons, hversion]
    cases decode_message_type stream.version <;> simp

variable {r : Bip324Cipher}

theorem PeerStream.seeking (hterm : s.send_terminator = r.recv_terminator) (own : List UInt8)
    (hbytes : chunks.flatten = stream.bytes) :
    Seeking stream.garbage s.send_terminator.toList (sent s stream.garbage stream.all) 0 (V2Channel.new r own)
      chunks.flatten := by
  refine ⟨rfl, rfl, rfl, by rw [hterm]; rfl, ?_, Nat.zero_le _, Nat.zero_le _, .inl rfl, ?_⟩
  · rw [hbytes]
    rfl
  · rw [GARBAGE_TERMINATOR_LEN, V2Channel.new, List.length_nil]
    omega

omit [Ciphers] in
theorem PeerStream.all_ne_nil : stream.all ≠ [] := by simp [PeerStream.all]

/-- The receiver gives a stream's messages exactly when no read ends in the gap, no decoy makes a message of the
version packet, and no packet is too large. -/
theorem PeerStream.feeds_iff (hs : s.Paired r) (hterm : s.send_terminator = r.recv_terminator) (own : List UInt8)
    (hbytes : chunks.flatten = stream.bytes) :
    ((V2Channel.new r own).feeds chunks).map Prod.fst = .ok stream.messages ↔
      ¬Gap stream.garbage.length 0 chunks ∧ (stream.decoys = [] ∨ decode_message_type stream.version = none) ∧
        ∀ p ∈ stream.all, p.contents.length ≤ MAX_CONTENTS_LEN := by
  rw [← heard_all]
  rcases (stream.seeking hterm own hbytes).kept stream.plain hs stream.all_ne_nil stream.fit with ⟨hgap, e, herr⟩ |
    ⟨hgap, ⟨⟨p, hp, hbig⟩, e, herr⟩ | ⟨outs, ch', s', aad', back, hok, hshort, hr⟩⟩
  · rw [herr]
    exact ⟨fun h => (by cases h), fun h => absurd hgap h.1⟩
  · rw [herr]
    exact ⟨fun h => (by cases h), fun h => absurd (h.2.2 p hp) (Nat.not_le.mpr hbig)⟩
  · obtain rfl : back = [] := hr.pending.finished hshort
    have houts : outs = heard false stream.all := by
      rw [← hr.heard]
      cases ch'.saw_version <;> simp [heard]
    rw [hok]
    constructor
    · intro h
      refine ⟨hgap, ?_, fun p hp => (hr.fits p hp).resolve_left (by simp)⟩
      rw [← houts]
      exact Except.ok.inj h
    · rintro ⟨-, h, -⟩
      rw [← h, ← houts]
      rfl

def Overruns : ℕ → List ℕ → Prop
  | _, [] => False
  | held, n :: rest =>
    MAX_GARBAGE_LEN + GARBAGE_TERMINATOR_LEN < held + n ∨
      Overruns (if MAX_GARBAGE_LEN < held + n then GARBAGE_TERMINATOR_LEN - 1 else held + n) rest

omit [Ciphers] in
theorem map_error_iff {α β : Type} {r : Except String α} (f : α → β) :
    (∃ e, r.map f = .error e) ↔ ∃ e, r = .error e := by
  cases r <;> simp [Except.map]

theorem feeds_garbage_iff (hsaw : ch.saw_terminator = false)
    (hnone : ∀ i, ¬Lies ch.cipher.recv_terminator.toList (ch.recv_buf ++ chunks.flatten) i) :
    (∃ e, ch.feeds chunks = .error e) ↔ Overruns ch.recv_buf.length (chunks.map List.length) := by
  induction chunks generalizing ch with
  | nil => simp [feeds, Overruns]
  | cons bytes chunks ih =>
    have hstep : ∀ i, ¬Lies ch.cipher.recv_terminator.toList (ch.recv_buf ++ bytes) i := by
      intro i hi
      have hwhole := lies_append hi chunks.flatten
      rw [List.append_assoc] at hwhole
      exact hnone i hwhole
    have hskip := @skip_garbage_none { ch with recv_buf := ch.recv_buf ++ bytes } hsaw hstep
    simp only [List.length_append] at hskip
    rw [List.map_cons, Overruns]
    by_cases hover : MAX_GARBAGE_LEN + GARBAGE_TERMINATOR_LEN < ch.recv_buf.length + bytes.length
    · rw [if_pos hover] at hskip
      exact iff_of_true ⟨_, feeds_error (feed_error hskip)⟩ (.inl hover)
    rw [if_neg hover] at hskip
    by_cases htrim : MAX_GARBAGE_LEN < ch.recv_buf.length + bytes.length
    · rw [if_pos htrim] at hskip
      rw [if_pos htrim, feeds_ok (feed_wait hskip hsaw), map_error_iff, or_iff_right hover]
      set kept := (ch.recv_buf ++ bytes).drop (ch.recv_buf.length + bytes.length - (GARBAGE_TERMINATOR_LEN - 1))
        with hkept
      have hlen : kept.length = GARBAGE_TERMINATOR_LEN - 1 := by
        rw [hkept, List.length_drop, List.length_append]
        rw [MAX_GARBAGE_LEN] at htrim
        rw [GARBAGE_TERMINATOR_LEN]
        omega
      rw [← hlen]
      refine @ih { ch with recv_buf := kept } hsaw ?_
      intro i hi
      rw [hkept, ← List.drop_append_of_le_length (by rw [List.length_append]; omega), lies_drop,
        List.append_assoc] at hi
      exact hnone _ hi
    · rw [if_neg htrim] at hskip
      rw [if_neg htrim, feeds_ok (feed_wait hskip hsaw), map_error_iff, or_iff_right hover, ← List.length_append]
      refine @ih { ch with recv_buf := ch.recv_buf ++ bytes } hsaw ?_
      rw [List.append_assoc]
      exact hnone

structure Bounded (ch : V2Channel) : Prop where
  length : ch.recv_buf.length < HEADER_LEN + MAX_CONTENTS_LEN + TAG_LEN
  held : ch.saw_terminator = false → ch.recv_buf.length ≤ MAX_GARBAGE_LEN

def Checked (ch : V2Channel) : Prop := ∀ len, ch.recv_len = some len → len ≤ MAX_CONTENTS_LEN

omit [Ciphers] in
theorem skip_garbage_bounded (h : ch.skip_garbage = .ok ch') :
    ch'.recv_len = ch.recv_len ∧ ch'.recv_buf.length ≤ ch.recv_buf.length ∧
      (ch'.saw_terminator = false → ch'.recv_buf.length ≤ MAX_GARBAGE_LEN) := by
  rw [skip_garbage] at h
  by_cases hsaw : ch.saw_terminator = true
  · rw [if_pos hsaw] at h
    cases h
    exact ⟨rfl, le_refl _, fun hf => absurd (hsaw.symm.trans hf) (by decide)⟩
  · rw [if_neg hsaw] at h
    cases hscan : scan ch.cipher.recv_terminator.toList ch.recv_buf
      (min ch.recv_buf.length (MAX_GARBAGE_LEN + GARBAGE_TERMINATOR_LEN)) 0 with
    | some i =>
      simp only [hscan] at h
      cases h
      exact ⟨rfl, by simp, by simp⟩
    | none =>
      simp only [hscan] at h
      split_ifs at h with hover htrim
      · cases h
        refine ⟨rfl, by simp, fun _ => ?_⟩
        simp only [List.length_drop, MAX_GARBAGE_LEN, GARBAGE_TERMINATOR_LEN]
        omega
      · cases h
        exact ⟨rfl, le_refl _, fun _ => Nat.not_lt.mp htrim⟩

theorem read_length_bounded (h : ch.read_length = .ok ch') (hc : Checked ch) :
    Checked ch' ∧ ch'.saw_terminator = ch.saw_terminator ∧ ch'.recv_buf.length ≤ ch.recv_buf.length ∧
      (ch'.recv_len = none → ch'.recv_buf.length < LENGTH_LEN) := by
  unfold read_length at h
  cases hlen : ch.recv_len with
  | some len =>
    rw [hlen] at h
    cases h
    exact ⟨hc, rfl, le_refl _, by simp [hlen]⟩
  | none =>
    rw [hlen] at h
    simp only at h
    split_ifs at h with hshort hbig
    · cases h
      exact ⟨hc, rfl, le_refl _, fun _ => hshort⟩
    · cases h
      refine ⟨?_, rfl, by simp, by simp⟩
      intro len heq
      cases heq
      exact Nat.not_lt.mp hbig

theorem read_packet_wait (h : ch.read_packet = .ok (.wait ch')) :
    ch' = ch ∧ ∀ len, ch.recv_len = some len → ch.recv_buf.length < HEADER_LEN + len + TAG_LEN := by
  unfold read_packet at h
  cases hlen : ch.recv_len with
  | none =>
    rw [hlen] at h
    cases h
    exact ⟨rfl, by simp⟩
  | some len =>
    rw [hlen] at h
    by_cases hshort : ch.recv_buf.length < HEADER_LEN + len + TAG_LEN
    · simp only [if_pos hshort] at h
      cases h
      refine ⟨rfl, ?_⟩
      intro len heq
      cases heq
      exact hshort
    · simp only [if_neg hshort] at h
      split at h
      · cases h
      · split_ifs at h <;> cases h

theorem read_packet_go {out : Option Named} (h : ch.read_packet = .ok (.go ch' out)) :
    ch'.recv_len = none ∧ ch'.recv_buf.length < ch.recv_buf.length := by
  unfold read_packet at h
  cases hlen : ch.recv_len with
  | none =>
    rw [hlen] at h
    cases h
  | some len =>
    rw [hlen] at h
    have hshort : ¬ch.recv_buf.length < HEADER_LEN + len + TAG_LEN := by
      intro hshort
      simp only [if_pos hshort] at h
      cases h
    simp only [if_neg hshort] at h
    have hdrop : (ch.recv_buf.drop (HEADER_LEN + len + TAG_LEN)).length < ch.recv_buf.length := by
      simp only [HEADER_LEN, TAG_LEN] at hshort ⊢
      rw [List.length_drop]
      omega
    split at h
    · cases h
    · split_ifs at h <;> cases h <;> exact ⟨rfl, hdrop⟩

theorem turn_bounded (hc : Checked ch) :
    (∀ ch', ch.turn = .ok (.wait ch') → Checked ch' ∧ Bounded ch') ∧
    ∀ ch' out, ch.turn = .ok (.go ch' out) → Checked ch' ∧ ch'.recv_buf.length < ch.recv_buf.length := by
  cases hskip : ch.skip_garbage with
  | error e =>
    have hturn : ch.turn = .error e := by
      rw [turn, hskip]
      rfl
    rw [hturn]
    exact ⟨fun _ h => (by cases h), fun _ _ h => (by cases h)⟩
  | ok ch₁ =>
    obtain ⟨hlen₁, hle₁, hheld⟩ := skip_garbage_bounded hskip
    have hc₁ : Checked ch₁ := fun len h => hc len (hlen₁ ▸ h)
    cases hsaw : ch₁.saw_terminator with
    | false =>
      have hturn : ch.turn = .ok (.wait ch₁) := by
        rw [turn, hskip]
        change (if !ch₁.saw_terminator then _ else _) = _
        rw [hsaw]
        rfl
      rw [hturn]
      refine ⟨fun ch' h => ?_, fun _ _ h => (by cases h)⟩
      cases h
      refine ⟨hc₁, (hheld hsaw).trans_lt (by decide), fun _ => hheld hsaw⟩
    | true =>
      have hturn : ch.turn = ch₁.read_length.bind V2Channel.read_packet := by
        rw [turn, hskip]
        change (if !ch₁.saw_terminator then _ else _) = _
        rw [hsaw]
        rfl
      rw [hturn]
      cases hread : ch₁.read_length with
      | error e => exact ⟨fun _ h => (by cases h), fun _ _ h => (by cases h)⟩
      | ok ch₂ =>
        obtain ⟨hc₂, hsaw₂, hle₂, hnone₂⟩ := read_length_bounded hread hc₁
        constructor
        · intro ch' h
          obtain ⟨rfl, hshort⟩ := read_packet_wait h
          refine ⟨hc₂, ?_, fun hf => absurd (hsaw₂.trans hsaw) (by rw [hf]; decide)⟩
          cases hlen : ch'.recv_len with
          | none => exact (hnone₂ hlen).trans (by decide)
          | some len =>
            have h₁ := hshort len hlen
            have h₂ := hc₂ len hlen
            omega
        · intro ch' out h
          obtain ⟨hnone, hlt⟩ := read_packet_go h
          refine ⟨fun len heq => ?_, by omega⟩
          rw [hnone] at heq
          cases heq

theorem drain_bounded {fuel : ℕ} (hc : Checked ch) (hfuel : ch.recv_buf.length < fuel)
    (h : drain fuel ch = .ok (outs, ch')) : Checked ch' ∧ Bounded ch' := by
  induction fuel generalizing ch outs with
  | zero => omega
  | succ fuel ih =>
    obtain ⟨hwait, hgo⟩ := turn_bounded hc
    rw [drain] at h
    cases hturn : ch.turn with
    | error e =>
      rw [hturn] at h
      cases h
    | ok t =>
      rw [hturn] at h
      cases t with
      | wait ch₁ =>
        cases h
        exact hwait _ hturn
      | go ch₁ out =>
        obtain ⟨hc₁, hlt⟩ := hgo _ _ hturn
        cases hrest : drain fuel ch₁ with
        | error e => simp [hrest, Except.map] at h
        | ok r =>
          simp only [hrest, Except.map, Except.ok.injEq, Prod.mk.injEq] at h
          exact @ih _ r.1 hc₁ (by omega) (by rw [hrest, ← h.2])

theorem feeds_bounded (hc : Checked ch) (hb : Bounded ch) (h : ch.feeds chunks = .ok (outs, ch')) :
    Checked ch' ∧ Bounded ch' := by
  induction chunks generalizing ch outs with
  | nil =>
    cases h
    exact ⟨hc, hb⟩
  | cons bytes chunks ih =>
    cases hfeed : ch.feed bytes with
    | error e =>
      rw [feeds_error hfeed] at h
      cases h
    | ok r =>
      obtain ⟨hc₁, hb₁⟩ := @drain_bounded _ { ch with recv_buf := ch.recv_buf ++ bytes } _ _ _ hc
        (Nat.lt_succ_self _) hfeed
      rw [feeds_ok hfeed] at h
      cases hrest : r.2.feeds chunks with
      | error e => simp [hrest, Except.map] at h
      | ok r' =>
        simp only [hrest, Except.map, Except.ok.injEq, Prod.mk.injEq] at h
        exact @ih _ r'.1 hc₁ hb₁ (by rw [hrest, ← h.2])

end

section

attribute [local instance] Ciphers.sample

def sample_sender : Bip324Cipher :=
  ⟨.new [1], .new [2], .new [3], .new [4], Vector.replicate 16 5, Vector.replicate 16 6⟩

def sample_receiver : Bip324Cipher :=
  ⟨.new [2], .new [1], .new [4], .new [3], Vector.replicate 16 6, Vector.replicate 16 5⟩

def sample_stream : PeerStream sample_sender where
  garbage := [7, 8]
  decoys := []
  version := []
  packets := [⟨[0, 0], true⟩, ⟨[22, 9], false⟩, ⟨[], true⟩]
  plain := ⟨by decide, by decide, by decide⟩
  fit := by decide

def decoy_stream : PeerStream sample_sender where
  garbage := []
  decoys := [[]]
  version := [1]
  packets := []
  plain := ⟨by decide, by decide, by decide⟩
  fit := by decide

end

end AvilaNode.V2
