import AvilaNode.MerkleBinding

/-! Message frames, and the decoder that takes their bytes as they arrive. -/

namespace AvilaNode.FrameCodec

open ByteStrings Utf8

def MAX_MESSAGE_PAYLOAD : ℕ := 4000000

def HEADER_LEN : ℕ := 24

/-- An array of `n` bytes, of zeros where the slice has another length. -/
def to_array (n : ℕ) (bytes : List UInt8) : Vector UInt8 n :=
  if h : bytes.length = n then ⟨bytes.toArray, by simp [h]⟩ else Vector.replicate n 0

@[simp] theorem to_array_toList {n : ℕ} (bytes : Vector UInt8 n) : to_array n bytes.toList = bytes := by
  apply Vector.toArray_inj.mp
  simp [to_array, Vector.toList]

structure Command where
  bytes : Vector UInt8 12
deriving DecidableEq

def printable (byte : UInt8) : Bool := decide (0x20 ≤ byte ∧ byte ≤ 0x7e)

def padded_name (raw : List UInt8) : Bool :=
  (raw.takeWhile fun byte => byte != 0).all printable && (raw.dropWhile fun byte => byte != 0).all fun byte =>
    byte == 0

namespace Command

def new (name : String) : Option Command :=
  let bytes := as_bytes name
  if bytes.isEmpty || decide (12 < bytes.length) || !bytes.all printable then none
  else some ⟨to_array 12 (bytes ++ List.replicate (12 - bytes.length) 0)⟩

def name (command : Command) : String := (from_utf8 (command.bytes.toList.takeWhile fun byte => byte != 0)).getD ""

theorem name_of_new {name : String} {command : Command} (h : new name = some command) :
    command.name = name ∧ padded_name command.bytes.toList = true := by
  unfold new at h
  dsimp only at h
  split at h
  · cases h
  rename_i hok
  simp only [Bool.or_eq_true, decide_eq_true_eq, Bool.not_eq_true', not_or, Bool.not_eq_false] at hok
  obtain ⟨⟨-, hlen⟩, hall⟩ := hok
  have hbytes : command.bytes.toList = as_bytes name ++ List.replicate (12 - (as_bytes name).length) 0 := by
    rw [← Option.some.inj h, to_array, dif_pos (by simp; omega)]
    simp [Vector.toList]
  have hnz : ∀ byte ∈ as_bytes name, (byte != 0) = true := by
    intro byte hb
    have hp := List.all_eq_true.mp hall byte hb
    simp only [printable, decide_eq_true_eq] at hp
    simp only [bne_iff_ne, ne_eq]
    rintro rfl
    exact absurd hp.1 (by decide)
  have hz : ∀ byte ∈ List.replicate (12 - (as_bytes name).length) (0 : UInt8), byte = 0 :=
    fun byte hb => List.eq_of_mem_replicate hb
  have htake : command.bytes.toList.takeWhile (fun byte => byte != 0) = as_bytes name := by
    rw [hbytes, List.takeWhile_append_of_pos hnz]
    simp
  have hdrop : command.bytes.toList.dropWhile (fun byte => byte != 0) =
      List.replicate (12 - (as_bytes name).length) 0 := by
    rw [hbytes, List.dropWhile_append_of_pos hnz]
    simp
  refine ⟨by rw [Command.name, htake, from_utf8_as_bytes, Option.getD_some], ?_⟩
  rw [padded_name, htake, hdrop, hall, Bool.true_and, List.all_eq_true]
  exact fun byte hb => by simp [hz byte hb]

end Command

inductive FrameError where
  | PayloadTooLarge (len : ℕ)
  | BadCommand
  | BadChecksum
  | BadMagic
deriving DecidableEq, Repr

variable [Platform]

def checksum (payload : List UInt8) : List UInt8 := (Hash256.to_bytes (Platform.sha256d payload)).take 4

def encode_frame (magic : Vector UInt8 4) (command : Command) (payload : List UInt8) : List UInt8 :=
  magic.toList ++ command.bytes.toList ++ le 4 payload.length ++ checksum payload ++ payload

structure FrameDecoder where
  magic : Vector UInt8 4
  buf : List UInt8
  poisoned : Bool

namespace FrameDecoder

def new (magic : Vector UInt8 4) : FrameDecoder := ⟨magic, [], false⟩

def feed (d : FrameDecoder) (bytes : List UInt8) : FrameDecoder := { d with buf := d.buf ++ bytes }

def over_buffered (d : FrameDecoder) : Bool := decide (HEADER_LEN + MAX_MESSAGE_PAYLOAD < d.buf.length)

def next_frame (d : FrameDecoder) : Except FrameError (Option (Command × List UInt8)) × FrameDecoder :=
  if d.poisoned then (.error .BadChecksum, d)
  else if d.over_buffered then (.error (.PayloadTooLarge (MAX_MESSAGE_PAYLOAD + 1)), { d with poisoned := true })
  else if d.buf.length < HEADER_LEN then (.ok none, d)
  else
    let header := d.buf.take HEADER_LEN
    if header.take 4 ≠ d.magic.toList then (.error .BadMagic, { d with poisoned := true })
    else
      let raw := (header.drop 4).take 12
      let command : Command := ⟨to_array 12 raw⟩
      if !padded_name raw then (.error .BadCommand, { d with poisoned := true })
      else
        let len := value ((header.drop 16).take 4)
        if MAX_MESSAGE_PAYLOAD < len then (.error (.PayloadTooLarge len), { d with poisoned := true })
        else if d.buf.length < HEADER_LEN + len then (.ok none, d)
        else
          let rest := d.buf.drop HEADER_LEN
          let payload := rest.take len
          let d := { d with buf := rest.drop len }
          if checksum payload ≠ header.drop 20 then (.error .BadChecksum, { d with poisoned := true })
          else (.ok (some (command, payload)), d)

variable {frame : Command × List UInt8}

variable {d d' : FrameDecoder}

theorem next_frame_shrinks (h : d.next_frame = (.ok (some frame), d')) :
    d'.buf.length < d.buf.length := by
  unfold next_frame at h
  split at h
  · simp at h
  split at h
  · simp at h
  split at h
  · simp at h
  rename_i hlen
  dsimp only at h
  split at h
  · simp at h
  split at h
  · simp at h
  split at h
  · simp at h
  split at h
  · simp at h
  split at h
  · simp at h
  · simp only [Prod.mk.injEq] at h
    rw [← h.2]
    simp only [HEADER_LEN, List.length_drop] at hlen ⊢
    omega

def drain (d : FrameDecoder) : List (Except FrameError (Command × List UInt8)) × FrameDecoder :=
  match h : d.next_frame with
  | (.error e, d') => ([.error e], d')
  | (.ok none, d') => ([], d')
  | (.ok (some frame), d') =>
    have := next_frame_shrinks h
    (.ok frame :: (drain d').1, (drain d').2)
termination_by d.buf.length

def receive (d : FrameDecoder) : List (List UInt8) → List (Except FrameError (Command × List UInt8)) × FrameDecoder
  | [] => ([], d)
  | chunk :: chunks =>
    let (out, d) := (d.feed chunk).drain
    let (more, d) := d.receive chunks
    (out ++ more, d)

theorem drain_error {e : FrameError} (h : d.next_frame = (.error e, d')) :
    d.drain = ([.error e], d') := by
  rw [drain]
  split <;> simp_all

theorem drain_none (h : d.next_frame = (.ok none, d')) : d.drain = ([], d') := by
  rw [drain]
  split <;> simp_all

theorem drain_some (h : d.next_frame = (.ok (some frame), d')) :
    d.drain = (.ok frame :: d'.drain.1, d'.drain.2) := by
  rw [drain]
  split <;> simp_all

end FrameDecoder

structure Frame where
  command : Command
  payload : List UInt8
  named : padded_name command.bytes.toList = true
  fits : payload.length ≤ MAX_MESSAGE_PAYLOAD

namespace Frame

def encode (magic : Vector UInt8 4) (frame : Frame) : List UInt8 := encode_frame magic frame.command frame.payload

def message (frame : Frame) : Command × List UInt8 := (frame.command, frame.payload)

def size (frame : Frame) : ℕ := HEADER_LEN + frame.payload.length

end Frame

@[simp] theorem length_checksum (payload : List UInt8) : (checksum payload).length = 4 := by
  simp [checksum, Hash256.length_to_bytes]

@[simp] theorem Frame.length_encode (magic : Vector UInt8 4) (frame : Frame) : (frame.encode magic).length =
    frame.size := by
  simp [encode, encode_frame, size, HEADER_LEN]
  omega

inductive Spoiled (magic : Vector UInt8 4) : List UInt8 → Prop
  | magic {header : List UInt8} (hlen : header.length = HEADER_LEN) (h : header.take 4 ≠ magic.toList) :
      Spoiled magic header
  | command {raw tail : List UInt8} (hraw : raw.length = 12) (hlen : tail.length = 8) (h : padded_name raw = false) :
      Spoiled magic (magic.toList ++ raw ++ tail)
  | length {raw len tail : List UInt8} (hraw : raw.length = 12) (hlen : len.length = 4) (htail : tail.length = 4)
      (h : MAX_MESSAGE_PAYLOAD < value len) : Spoiled magic (magic.toList ++ raw ++ len ++ tail)
  | checksum {raw sum payload : List UInt8} (hraw : raw.length = 12) (hsum : sum.length = 4)
      (hfits : payload.length ≤ MAX_MESSAGE_PAYLOAD) (h : sum ≠ checksum payload) :
      Spoiled magic (magic.toList ++ raw ++ le 4 payload.length ++ sum ++ payload)

variable {bad : List UInt8}

theorem Spoiled.header_le {magic : Vector UInt8 4} (h : Spoiled magic bad) : HEADER_LEN ≤
    bad.length := by
  cases h with
  | magic hlen => rw [hlen]
  | command hraw hlen => simp [hraw, hlen, HEADER_LEN]
  | length hraw hlen htail => simp [hraw, hlen, htail, HEADER_LEN]
  | checksum hraw hsum =>
    simp [hraw, hsum, HEADER_LEN]
    omega

namespace FrameDecoder

variable {d : FrameDecoder} {rest more : List UInt8}

theorem next_frame_poisoned (h : d.poisoned = true) : d.next_frame = (.error .BadChecksum, d) := by
  rw [next_frame, if_pos h]

theorem next_frame_over (h : HEADER_LEN + MAX_MESSAGE_PAYLOAD < d.buf.length) :
    ∃ e d', d.next_frame = (.error e, d') ∧ d'.poisoned = true := by
  by_cases hp : d.poisoned
  · exact ⟨_, _, next_frame_poisoned hp, hp⟩
  · rw [next_frame, if_neg hp, if_pos (by simpa [over_buffered] using h)]
    exact ⟨_, _, rfl, rfl⟩

section

variable (hp : d.poisoned = false)
include hp

theorem next_frame_short (h : d.buf.length < HEADER_LEN) :
    d.next_frame = (.ok none, d) := by
  have ho : d.over_buffered = false := by simp [over_buffered]; omega
  rw [next_frame, if_neg (by simp [hp]), if_neg (by simp [ho]), if_pos h]

theorem next_frame_header {raw len sum : List UInt8} (hraw : raw.length = 12) (hlen : len.length = 4)
    (hsum : sum.length = 4) (hbuf : d.buf = d.magic.toList ++ raw ++ len ++ sum ++ rest)
    (hfits : d.buf.length ≤ HEADER_LEN + MAX_MESSAGE_PAYLOAD) :
    d.next_frame =
      if !padded_name raw then (.error .BadCommand, { d with poisoned := true })
      else if MAX_MESSAGE_PAYLOAD <
        value len then (.error (.PayloadTooLarge (value len)), { d with poisoned := true })
      else if rest.length < value len then (.ok none, d)
      else if checksum (rest.take (value len)) ≠ sum then
        (.error .BadChecksum, { d with buf := rest.drop (value len), poisoned := true })
      else (.ok (some (⟨to_array 12 raw⟩, rest.take (value len))), { d with buf := rest.drop (value len) }) := by
  have ho : d.over_buffered = false := by simp [over_buffered]; omega
  have hheader : d.buf.take HEADER_LEN = d.magic.toList ++ raw ++ len ++ sum := by
    rw [hbuf]
    exact List.take_left' (by simp [hraw, hlen, hsum, HEADER_LEN])
  have hdrop : d.buf.drop HEADER_LEN = rest := by
    rw [hbuf]
    exact List.drop_left' (by simp [hraw, hlen, hsum, HEADER_LEN])
  have hsize : d.buf.length = HEADER_LEN + rest.length := by
    rw [hbuf]
    simp only [List.length_append, Vector.length_toList, hraw, hlen, hsum, HEADER_LEN]
  have hmagic : (d.magic.toList ++ raw ++ len ++ sum).take 4 = d.magic.toList := by
    simp
  have hname : ((d.magic.toList ++ raw ++ len ++ sum).drop 4).take 12 = raw := by
    rw [List.append_assoc, List.append_assoc, List.drop_left' (by simp), ← List.append_assoc, List.append_assoc,
      List.take_left' hraw]
  have hcount : ((d.magic.toList ++ raw ++ len ++ sum).drop 16).take 4 = len := by
    rw [List.append_assoc, List.drop_left' (by simp [hraw]), List.take_left' hlen]
  have hsums : (d.magic.toList ++ raw ++ len ++ sum).drop 20 = sum := List.drop_left' (by simp [hraw, hlen])
  rw [next_frame, if_neg (by simp [hp]), if_neg (by simp [ho]), if_neg (by omega)]
  simp only [hheader, hdrop, hmagic, hname, hcount, hsums, hsize, ne_eq, not_true, if_false]
  by_cases hshort : rest.length < value len
  · simp [hshort]
  · simp [hshort]

theorem next_frame_encoded {frame : Frame} (hbuf : d.buf = frame.encode d.magic ++ rest)
    (hfits : d.buf.length ≤ HEADER_LEN + MAX_MESSAGE_PAYLOAD) :
    d.next_frame = (.ok (some frame.message), { d with buf := rest }) := by
  have hcount : value (le 4 frame.payload.length) = frame.payload.length :=
    value_le (lt_of_le_of_lt frame.fits (by decide))
  have htake : (frame.payload ++ rest).take frame.payload.length = frame.payload := List.take_left
  have hdrop : (frame.payload ++ rest).drop frame.payload.length = rest := List.drop_left
  have hlen : ¬(frame.payload ++ rest).length < frame.payload.length := by simp
  rw [next_frame_header hp Vector.length_toList (length_le 4 _) (length_checksum _)
    (by rw [hbuf, Frame.encode, encode_frame, List.append_assoc _ frame.payload]) hfits]
  simp only [hcount, frame.named, Nat.not_lt.mpr frame.fits, hlen, htake, hdrop, Bool.not_true, Bool.false_eq_true,
    if_false, ne_eq, not_true, to_array_toList, Frame.message]

theorem next_frame_waits {frame : Frame} (hbuf : d.buf ++ more = frame.encode d.magic ++ rest)
    (hlt : d.buf.length < frame.size) :
    d.next_frame = (.ok none, d) := by
  by_cases hshort : d.buf.length < HEADER_LEN
  · exact next_frame_short hp hshort
  have hcount : value (le 4 frame.payload.length) = frame.payload.length :=
    value_le (lt_of_le_of_lt frame.fits (by decide))
  have hfits := frame.fits
  have htake : d.buf = (frame.encode d.magic).take d.buf.length := by
    have h := congrArg (List.take d.buf.length) hbuf
    rwa [List.take_left, List.take_append_of_le_length (by rw [Frame.length_encode]; omega)] at h
  have hsplit : d.buf = d.magic.toList ++ frame.command.bytes.toList ++ le 4 frame.payload.length
      ++ checksum frame.payload ++ frame.payload.take (d.buf.length - HEADER_LEN) := by
    conv_lhs => rw [htake, Frame.encode, encode_frame]
    rw [List.take_append, List.take_of_length_le (by simp [HEADER_LEN] at hshort ⊢; omega)]
    congr 2
    simp [HEADER_LEN]
  rw [next_frame_header hp Vector.length_toList (length_le 4 _) (length_checksum _) hsplit
    (by simp only [Frame.size] at hlt; omega)]
  have hrest : (frame.payload.take (d.buf.length - HEADER_LEN)).length < frame.payload.length := by
    simp only [List.length_take, Frame.size] at hlt ⊢
    omega
  simp only [frame.named, hcount, Nat.not_lt.mpr hfits, hrest, Bool.not_true, Bool.false_eq_true, if_false, if_true]

end

omit [Platform] in
theorem buf_eq_header (header : List UInt8) (hlen : header.length = HEADER_LEN)
    (hbuf : d.buf ++ more = header ++ rest) (hle : HEADER_LEN ≤ d.buf.length) :
    ∃ part, d.buf = header ++ part ∧ part ++ more = rest := by
  obtain ⟨part, hpart⟩ : header <+: d.buf :=
    List.prefix_of_prefix_length_le (hbuf ▸ List.prefix_append header _) (List.prefix_append d.buf more) (by omega)
  refine ⟨part, hpart.symm, ?_⟩
  rw [← hpart, List.append_assoc] at hbuf
  exact List.append_cancel_left hbuf

theorem next_frame_spoiled (hbad : Spoiled d.magic bad) (hp : d.poisoned = false) (hbuf : d.buf ++ more = bad ++ rest) :
    (∃ e d', d.next_frame = (.error e, d') ∧ d'.poisoned = true) ∨
      (d.next_frame = (.ok none, d) ∧ d.buf.length < bad.length) := by
  by_cases hover : HEADER_LEN + MAX_MESSAGE_PAYLOAD < d.buf.length
  · exact .inl (next_frame_over hover)
  by_cases hshort : d.buf.length < HEADER_LEN
  · exact .inr ⟨next_frame_short hp hshort, lt_of_lt_of_le hshort hbad.header_le⟩
  have hfits := Nat.not_lt.mp hover
  have hle := Nat.not_lt.mp hshort
  cases hbad with
  | magic hlen h =>
    obtain ⟨part, hpart, -⟩ := buf_eq_header bad hlen hbuf hle
    have ho : d.over_buffered = false := by simp [over_buffered]; omega
    have hheader : d.buf.take HEADER_LEN = bad := by rw [hpart, List.take_left' hlen]
    rw [next_frame, if_neg (by simp [hp]), if_neg (by simp [ho]), if_neg hshort]
    simp only [hheader, ne_eq, h, not_false_iff, if_true]
    exact .inl ⟨_, _, rfl, rfl⟩
  | @command raw tail hraw htail h =>
    obtain ⟨part, hpart, -⟩ := buf_eq_header (d.magic.toList ++ raw ++ tail)
      (by simp [hraw, htail, HEADER_LEN]) hbuf hle
    have hcount : (tail.take 4).length = 4 := by simp [htail]
    have hsum : (tail.drop 4).length = 4 := by simp [htail]
    rw [next_frame_header hp hraw hcount hsum
      (by rw [hpart, List.append_assoc (d.magic.toList ++ raw) (tail.take 4), List.take_append_drop]) hfits, h]
    exact .inl ⟨_, _, rfl, rfl⟩
  | @length raw len tail hraw hlen htail h =>
    obtain ⟨part, hpart, -⟩ := buf_eq_header (d.magic.toList ++ raw ++ len ++ tail)
      (by simp only [List.length_append, Vector.length_toList, hraw, hlen, htail, HEADER_LEN]) hbuf hle
    rw [next_frame_header hp hraw hlen htail hpart hfits, if_pos h]
    split <;> exact .inl ⟨_, _, rfl, rfl⟩
  | @checksum raw sum payload hraw hsum hpay h =>
    have hcount : value (le 4 payload.length) = payload.length := value_le (lt_of_le_of_lt hpay (by decide))
    obtain ⟨part, hpart, hmore⟩ := buf_eq_header (d.magic.toList ++ raw ++ le 4 payload.length ++ sum)
      (by simp only [List.length_append, Vector.length_toList, hraw, hsum, length_le, HEADER_LEN])
      (by rw [hbuf, List.append_assoc]) hle
    rw [next_frame_header hp hraw (length_le 4 _) hsum hpart hfits, hcount]
    split
    · exact .inl ⟨_, _, rfl, rfl⟩
    rw [if_neg (Nat.not_lt.mpr hpay)]
    split
    · rename_i hpartial
      refine .inr ⟨rfl, ?_⟩
      rw [hpart]
      simp only [List.length_append]
      omega
    · rename_i hfull
      have htake : part.take payload.length = payload := by
        have ht := congrArg (List.take payload.length) hmore
        rwa [List.take_append_of_le_length (Nat.not_lt.mp hfull), List.take_left] at ht
      rw [htake, if_pos h.symm]
      exact .inl ⟨_, _, rfl, rfl⟩

theorem receive_poisoned (h : d.poisoned = true) (chunks : List (List UInt8)) :
    ∀ out ∈ (d.receive chunks).1, ∃ e, out = .error e := by
  induction chunks generalizing d with
  | nil => exact fun _ hout => absurd hout List.not_mem_nil
  | cons chunk chunks ih =>
    have hd : (d.feed chunk).poisoned = true := h
    intro out hout
    rw [receive, drain_error (next_frame_poisoned hd)] at hout
    rcases List.mem_append.mp hout with hout | hout
    · exact ⟨_, List.mem_singleton.mp hout⟩
    · exact ih hd out hout

theorem receive_spoiled (hbad : Spoiled d.magic bad) (hp : d.poisoned = false) (hlt : d.buf.length < bad.length)
    (chunks : List (List UInt8)) (hbuf : d.buf ++ chunks.flatten = bad ++ rest) :
    (d.receive chunks).1 ≠ [] ∧ ∀ out ∈ (d.receive chunks).1, ∃ e, out = .error e := by
  induction chunks generalizing d with
  | nil =>
    have hl := congrArg List.length hbuf
    simp at hl
    omega
  | cons chunk chunks ih =>
    rw [List.flatten_cons, ← List.append_assoc] at hbuf
    rcases next_frame_spoiled (d := d.feed chunk) hbad hp hbuf with ⟨e, d', hn, hp'⟩ | ⟨hn, hlt'⟩
    · rw [receive, drain_error hn]
      refine ⟨by simp, fun out hout => ?_⟩
      rcases List.mem_append.mp hout with hout | hout
      · exact ⟨e, List.mem_singleton.mp hout⟩
      · exact receive_poisoned hp' chunks out hout
    · rw [receive, drain_none hn]
      exact ih hbad hp hlt' hbuf

end FrameDecoder

end AvilaNode.FrameCodec
