import AvilaNode.FrameCodec

/-! The ciphers of the encrypted transport, and the packets they make. -/

namespace AvilaNode.V2

open ByteStrings

def REKEY_INTERVAL : ℕ := 224

def LENGTH_LEN : ℕ := 3

def HEADER_LEN : ℕ := 1

def TAG_LEN : ℕ := 16

def EXPANSION : ℕ := LENGTH_LEN + HEADER_LEN + TAG_LEN

def GARBAGE_TERMINATOR_LEN : ℕ := 16

def MAX_GARBAGE_LEN : ℕ := 4095

def IGNORE_BIT : UInt8 := 0x80

/-- The stream cipher, byte by byte, and the authenticated cipher: `aead_encrypt` and `aead_decrypt` take the
key, the nonce, the associated data and the text. -/
class Ciphers where
  keystream : List UInt8 → ℕ × ℕ → ℕ → UInt8
  aead_encrypt : List UInt8 → ℕ × ℕ → List UInt8 → List UInt8 → List UInt8
  aead_decrypt : List UInt8 → ℕ × ℕ → List UInt8 → List UInt8 → Option (List UInt8)
  length_aead_encrypt : ∀ key nonce aad plain, (aead_encrypt key nonce aad plain).length = plain.length + TAG_LEN
  aead_decrypt_encrypt : ∀ key nonce aad plain,
    aead_decrypt key nonce aad (aead_encrypt key nonce aad plain) = some plain
  /-- A tag does not hold for the associated data less its first bytes. -/
  aead_decrypt_drop : ∀ key nonce aad plain d, aad.length ≤ MAX_GARBAGE_LEN → 0 < d → d ≤ aad.length →
    aead_decrypt key nonce (aad.drop d) (aead_encrypt key nonce aad plain) = none

def sample_tag (nonce : ℕ × ℕ) (aad : List UInt8) : List UInt8 :=
    le 8 aad.length ++ le 8 (nonce.1 + nonce.2 * 4294967296)

@[reducible] def Ciphers.sample : Ciphers where
  keystream _ nonce position := UInt8.ofNat (nonce.1 + nonce.2 + 16 * position)
  aead_encrypt _ nonce aad plain := plain ++ sample_tag nonce aad
  aead_decrypt _ nonce aad packet :=
    if packet.drop (packet.length - TAG_LEN) = sample_tag nonce aad then some (packet.take (packet.length - TAG_LEN))
    else none
  length_aead_encrypt key nonce aad plain := by simp [sample_tag, TAG_LEN]
  aead_decrypt_encrypt key nonce aad plain := by simp [sample_tag, TAG_LEN]
  aead_decrypt_drop key nonce aad plain d hlen hd hle := by
    have hne : sample_tag nonce aad ≠ sample_tag nonce (aad.drop d) := by
      intro heq
      have hle8 := List.append_inj_left heq (by simp)
      rw [MAX_GARBAGE_LEN] at hlen
      have hlength := le_inj (by omega) (by rw [List.length_drop]; omega) hle8
      rw [List.length_drop] at hlength
      omega
    simp [sample_tag, TAG_LEN] at hne ⊢
    exact hne

variable [Ciphers]

def apply_keystream (key : List UInt8) (nonce : ℕ × ℕ) (position : ℕ) (data : List UInt8) : List UInt8 :=
  data.mapIdx fun i byte => byte ^^^ Ciphers.keystream key nonce (position + i)

structure FsChaCha20 where
  key : List UInt8
  nonce : ℕ × ℕ
  position : ℕ
  chunk_counter : ℕ
  rekey_counter : ℕ
deriving DecidableEq

namespace FsChaCha20

omit [Ciphers] in
def new (key : List UInt8) : FsChaCha20 := ⟨key, (0, 0), 0, 0, 0⟩

def advance (c : FsChaCha20) (len : ℕ) : FsChaCha20 :=
  if c.chunk_counter + 1 = REKEY_INTERVAL then
    let new_key := apply_keystream c.key c.nonce (c.position + len) (List.replicate 32 0)
    ⟨new_key, (0, c.rekey_counter + 1), 0, 0, c.rekey_counter + 1⟩
  else { c with position := c.position + len, chunk_counter := c.chunk_counter + 1 }

def crypt (c : FsChaCha20) (data : List UInt8) : List UInt8 × FsChaCha20 :=
  (apply_keystream c.key c.nonce c.position data, c.advance data.length)

@[simp] theorem length_crypt (c : FsChaCha20) (data : List UInt8) : (c.crypt data).1.length = data.length := by
  simp [crypt, apply_keystream]

theorem crypt_crypt (c : FsChaCha20) (data : List UInt8) : c.crypt (c.crypt data).1 = (data, (c.crypt data).2) := by
  have hlen := c.length_crypt data
  refine Prod.ext ?_ (by rw [crypt, hlen]; rfl)
  apply List.ext_getElem
  · simp
  · intro i h _
    simp only [crypt, apply_keystream, List.getElem_mapIdx, UInt8.xor_assoc, UInt8.xor_self, UInt8.xor_zero]

end FsChaCha20

structure FsChaCha20Poly1305 where
  key : List UInt8
  packet_counter : ℕ
  rekey_counter : ℕ
deriving DecidableEq

variable {aad : List UInt8}

namespace FsChaCha20Poly1305

omit [Ciphers] in
def new (key : List UInt8) : FsChaCha20Poly1305 := ⟨key, 0, 0⟩

def next_packet (c : FsChaCha20Poly1305) : FsChaCha20Poly1305 :=
  if c.packet_counter + 1 = REKEY_INTERVAL then
    let block := apply_keystream c.key (0xFFFFFFFF, c.rekey_counter) 64 (List.replicate 64 0)
    ⟨block.take 32, 0, c.rekey_counter + 1⟩
  else { c with packet_counter := c.packet_counter + 1 }

def encrypt (c : FsChaCha20Poly1305) (plain aad : List UInt8) : List UInt8 × FsChaCha20Poly1305 :=
  (Ciphers.aead_encrypt c.key (c.packet_counter, c.rekey_counter) aad plain, c.next_packet)

def decrypt (c : FsChaCha20Poly1305) (cipher aad : List UInt8) : Option (List UInt8) × FsChaCha20Poly1305 :=
  (Ciphers.aead_decrypt c.key (c.packet_counter, c.rekey_counter) aad cipher, c.next_packet)

variable (c : FsChaCha20Poly1305)

theorem decrypt_encrypt (plain aad : List UInt8) :
    c.decrypt (c.encrypt plain aad).1 aad = (some plain, (c.encrypt plain aad).2) := by
  rw [decrypt, encrypt, Ciphers.aead_decrypt_encrypt]

theorem decrypt_drop (plain : List UInt8) {d : ℕ} (hlen : aad.length ≤ MAX_GARBAGE_LEN) (hd : 0 < d)
    (hle : d ≤ aad.length) :
    (c.decrypt (c.encrypt plain aad).1 (aad.drop d)).1 = none := Ciphers.aead_decrypt_drop _ _ _ _ _ hlen hd hle

end FsChaCha20Poly1305

structure Bip324Cipher where
  send_l : FsChaCha20
  recv_l : FsChaCha20
  send_p : FsChaCha20Poly1305
  recv_p : FsChaCha20Poly1305
  send_terminator : Vector UInt8 16
  recv_terminator : Vector UInt8 16
deriving DecidableEq

namespace Bip324Cipher

omit [Ciphers] in
def header (ignore : Bool) : UInt8 := if ignore then IGNORE_BIT else 0

def encrypt_packet (c : Bip324Cipher) (contents aad : List UInt8) (ignore : Bool) : List UInt8 × Bip324Cipher :=
  let len := c.send_l.crypt (le LENGTH_LEN contents.length)
  let ct := c.send_p.encrypt (header ignore :: contents) aad
  (len.1 ++ ct.1, { c with send_l := len.2, send_p := ct.2 })

def decrypt_length (c : Bip324Cipher) (enc_len : List UInt8) : ℕ × Bip324Cipher :=
  let buf := c.recv_l.crypt enc_len
  (value buf.1, { c with recv_l := buf.2 })

def decrypt_packet (c : Bip324Cipher) (packet aad : List UInt8) : Option (Bool × List UInt8) × Bip324Cipher :=
  let plain := c.recv_p.decrypt packet aad
  (match plain.1 with
    | some (byte :: contents) => some (byte &&& IGNORE_BIT == IGNORE_BIT, contents)
    | some [] => none
    | none => none, { c with recv_p := plain.2 })

structure Paired (s r : Bip324Cipher) : Prop where
  length : s.send_l = r.recv_l
  packet : s.send_p = r.recv_p

variable {s r : Bip324Cipher}

theorem length_encrypt_packet (s : Bip324Cipher) (contents aad : List UInt8) (ignore : Bool) :
    (s.encrypt_packet contents aad ignore).1.length = contents.length + EXPANSION := by
  rw [encrypt_packet, List.length_append, FsChaCha20.length_crypt, length_le, FsChaCha20Poly1305.encrypt,
    Ciphers.length_aead_encrypt, List.length_cons, EXPANSION, LENGTH_LEN, HEADER_LEN]
  omega

theorem Paired.decrypt_length (h : Paired s r) {contents : List UInt8} (hlen : contents.length < 2 ^ 24)
    (aad : List UInt8) (ignore : Bool) :
    r.decrypt_length ((s.encrypt_packet contents aad ignore).1.take LENGTH_LEN) =
      (contents.length, { r with recv_l := (s.encrypt_packet contents aad ignore).2.send_l }) := by
  have htake : (s.encrypt_packet contents aad ignore).1.take LENGTH_LEN =
      (s.send_l.crypt (le LENGTH_LEN contents.length)).1 := by
    rw [encrypt_packet, List.take_left' (by rw [FsChaCha20.length_crypt, length_le])]
  rw [htake, Bip324Cipher.decrypt_length, ← h.length, FsChaCha20.crypt_crypt, value_le hlen]
  rfl

theorem drop_encrypt_packet (s : Bip324Cipher) (contents aad : List UInt8) (ignore : Bool) :
    (s.encrypt_packet contents aad ignore).1.drop LENGTH_LEN =
    (s.send_p.encrypt (header ignore :: contents) aad).1 := by
  rw [encrypt_packet, List.drop_left' (by rw [FsChaCha20.length_crypt, length_le])]

theorem Paired.decrypt_packet (h : s.send_p = r.recv_p) (contents aad : List UInt8) (ignore : Bool) :
    r.decrypt_packet ((s.encrypt_packet contents aad ignore).1.drop LENGTH_LEN) aad =
      (some (ignore, contents), { r with recv_p := (s.encrypt_packet contents aad ignore).2.send_p }) := by
  rw [drop_encrypt_packet, Bip324Cipher.decrypt_packet, ← h, FsChaCha20Poly1305.decrypt_encrypt]
  cases ignore <;> rfl

theorem Paired.decrypt_packet_drop (h : s.send_p = r.recv_p) (contents : List UInt8) (ignore : Bool) {d : ℕ}
    (hlen : aad.length ≤ MAX_GARBAGE_LEN) (hd : 0 < d) (hle : d ≤ aad.length) :
    (r.decrypt_packet ((s.encrypt_packet contents aad ignore).1.drop LENGTH_LEN) (aad.drop d)).1 = none := by
  rw [drop_encrypt_packet, Bip324Cipher.decrypt_packet, ← h, FsChaCha20Poly1305.decrypt_drop _ _ hlen hd hle]

end Bip324Cipher

end AvilaNode.V2

namespace AvilaNode.V2

open ByteStrings Utf8
open FrameCodec (Command MAX_MESSAGE_PAYLOAD)

def MAX_CONTENTS_LEN : ℕ := 1 + 12 + MAX_MESSAGE_PAYLOAD

abbrev Named := String × List UInt8

def SHORT_IDS : List String :=
  ["", "addr", "block", "blocktxn", "cmpctblock", "feefilter", "filteradd", "filterclear", "filterload", "getblocks",
    "getblocktxn", "getdata", "getheaders", "headers", "inv", "mempool", "merkleblock", "notfound", "ping", "pong",
    "sendcmpct", "tx", "getcfilters", "cfilter", "getcfheaders", "cfheaders", "getcfcheckpt", "cfcheckpt", "addrv2"]

def long_form (command : String) : List UInt8 :=
  let bytes := (as_bytes command).take 12
  0 :: (bytes ++ List.replicate (12 - bytes.length) 0)

def encode_message_type (command : String) : List UInt8 :=
  match SHORT_IDS.findIdx? (· == command) with
  | some id => if 0 < id then [UInt8.ofNat id] else long_form command
  | none => long_form command

def decode_name (raw : List UInt8) : Option String :=
  let name := raw.takeWhile fun byte => byte != 0
  if name.all (fun byte => decide (0x20 ≤ byte ∧ byte ≤ 0x7f)) && (raw.drop name.length).all
    (fun byte => byte == 0) then
    some (from_utf8_lossy name)
  else none

def decode_message_type : List UInt8 → Option Named
  | [] => none
  | first :: rest =>
    if first ≠ 0 then (SHORT_IDS[first.toNat]?).map fun s => (s, rest)
    else if rest.length < 12 then none
    else (decode_name (rest.take 12)).map fun name => (name, rest.drop 12)

theorem decode_name_padded {name : String} (hall : (as_bytes name).all FrameCodec.printable = true) (count : ℕ) :
    decode_name (as_bytes name ++ List.replicate count 0) = some name := by
  have hprintable : ∀ byte ∈ as_bytes name, 0x20 ≤ byte ∧ byte ≤ 0x7e := fun byte hb => by
    simpa [FrameCodec.printable] using List.all_eq_true.mp hall byte hb
  have htake : (as_bytes name ++ List.replicate count 0).takeWhile (fun byte => byte != 0) = as_bytes name := by
    rw [List.takeWhile_append_of_pos]
    · simp
    · intro byte hb
      rw [bne_iff_ne]
      rintro rfl
      exact absurd (hprintable 0 hb).1 (by decide)
  have hname : (as_bytes name).all (fun byte => decide (0x20 ≤ byte ∧ byte ≤ 0x7f)) = true := by
    rw [List.all_eq_true]
    intro byte hb
    exact decide_eq_true ⟨(hprintable byte hb).1, UInt8.le_trans (hprintable byte hb).2 (by decide)⟩
  rw [decode_name, htake, hname, List.drop_left, if_pos (by simp), from_utf8_lossy_as_bytes]

theorem decode_encode_message_type {name : String} {command : Command} (h : Command.new name = some command)
    (payload : List UInt8) : decode_message_type (encode_message_type name ++ payload) = some (name, payload) := by
  have hlong : decode_message_type (long_form name ++ payload) = some (name, payload) := by
    obtain ⟨hlen, hall⟩ : (as_bytes name).length ≤ 12 ∧ (as_bytes name).all FrameCodec.printable = true := by
      unfold Command.new at h
      dsimp only at h
      split at h
      · cases h
      · simp_all
    rw [long_form, List.take_of_length_le hlen, List.cons_append, decode_message_type, if_neg (by simp),
      if_neg (by simp; omega), List.take_left' (by simp; omega), List.drop_left' (by simp; omega),
      decode_name_padded hall]
    rfl
  unfold encode_message_type
  split
  · rename_i id hid
    split_ifs with hpos
    · obtain ⟨hlt, heq⟩ : ∃ h : id < SHORT_IDS.length, SHORT_IDS[id] = name := by
        obtain ⟨hlt, heq, -⟩ := List.findIdx?_eq_some_iff_getElem.mp hid
        exact ⟨hlt, by simpa using heq⟩
      have hid' : (UInt8.ofNat id).toNat = id := by
        have hlen : SHORT_IDS.length = 29 := rfl
        rw [UInt8.toNat_ofNat']
        omega
      have hne : UInt8.ofNat id ≠ 0 := by
        intro h0
        rw [h0] at hid'
        simp at hid'
        omega
      rw [List.singleton_append, decode_message_type, if_pos hne, hid', List.getElem?_eq_getElem hlt, heq]
      rfl
    · exact hlong
  · exact hlong

structure V2Channel where
  cipher : Bip324Cipher
  recv_buf : List UInt8
  recv_len : Option ℕ
  send_garbage : List UInt8
  recv_aad : Option (List UInt8)
  saw_terminator : Bool
  saw_version : Bool
deriving DecidableEq

def scan (term buf : List UInt8) : ℕ → ℕ → Option ℕ
  | 0, _ => none
  | count + 1, i =>
    if i + GARBAGE_TERMINATOR_LEN ≤ buf.length ∧ (buf.drop i).take GARBAGE_TERMINATOR_LEN = term then some i
    else if MAX_GARBAGE_LEN ≤ i then none
    else scan term buf count (i + 1)

inductive Turn where
  | wait (ch : V2Channel)
  | go (ch : V2Channel) (out : Option Named)

namespace V2Channel

def new (cipher : Bip324Cipher) (send_garbage : List UInt8) : V2Channel :=
  ⟨cipher, [], none, send_garbage, none, false, false⟩

def skip_garbage (ch : V2Channel) : Except String V2Channel :=
  if ch.saw_terminator then .ok ch
  else
    let need := MAX_GARBAGE_LEN + GARBAGE_TERMINATOR_LEN
    match scan ch.cipher.recv_terminator.toList ch.recv_buf (min ch.recv_buf.length need) 0 with
    | some i => .ok { ch with
        recv_aad := some (ch.recv_buf.take i), recv_buf := ch.recv_buf.drop (i + GARBAGE_TERMINATOR_LEN),
        saw_terminator := true }
    | none =>
      if need < ch.recv_buf.length then .error "peer garbage overrun"
      else if MAX_GARBAGE_LEN < ch.recv_buf.length then
        .ok { ch with recv_buf := ch.recv_buf.drop (ch.recv_buf.length - (GARBAGE_TERMINATOR_LEN - 1)) }
      else .ok ch

variable [Ciphers]

def handshake_tail (ch : V2Channel) : List UInt8 × V2Channel :=
  let packet := ch.cipher.encrypt_packet [] ch.send_garbage false
  (ch.cipher.send_terminator.toList ++ packet.1, { ch with cipher := packet.2, send_garbage := [] })

def encode_message (ch : V2Channel) (command : String) (payload : List UInt8) : List UInt8 × V2Channel :=
  let packet := ch.cipher.encrypt_packet (encode_message_type command ++ payload) [] false
  (packet.1, { ch with cipher := packet.2 })

def encode_decoy (ch : V2Channel) (len : ℕ) : List UInt8 × V2Channel :=
  let packet := ch.cipher.encrypt_packet (List.replicate len 0) [] true
  (packet.1, { ch with cipher := packet.2 })

def read_length (ch : V2Channel) : Except String V2Channel :=
  match ch.recv_len with
  | some _ => .ok ch
  | none =>
    if ch.recv_buf.length < LENGTH_LEN then .ok ch
    else
      let len := ch.cipher.decrypt_length (ch.recv_buf.take LENGTH_LEN)
      if MAX_CONTENTS_LEN < len.1 then .error "packet contents too large"
      else .ok { ch with cipher := len.2, recv_buf := ch.recv_buf.drop LENGTH_LEN, recv_len := some len.1 }

def read_packet (ch : V2Channel) : Except String Turn :=
  match ch.recv_len with
  | none => .ok (.wait ch)
  | some len =>
    let packet_len := HEADER_LEN + len + TAG_LEN
    if ch.recv_buf.length < packet_len then .ok (.wait ch)
    else
      let plain := ch.cipher.decrypt_packet (ch.recv_buf.take packet_len) (ch.recv_aad.getD [])
      let rest : V2Channel := { ch with
        cipher := plain.2, recv_buf := ch.recv_buf.drop packet_len, recv_len := none, recv_aad := none }
      match plain.1 with
      | none => .error "bad packet tag — transport desynchronized"
      | some (ignore, contents) =>
        if !ch.saw_version then .ok (.go { rest with saw_version := true } none)
        else if ignore then .ok (.go rest none)
        else .ok (.go rest (decode_message_type contents))

def turn (ch : V2Channel) : Except String Turn := do
  let ch ← ch.skip_garbage
  if !ch.saw_terminator then pure (.wait ch)
  else
    let ch ← ch.read_length
    ch.read_packet

def drain : ℕ → V2Channel → Except String (List Named × V2Channel)
  | 0, ch => .ok ([], ch)
  | fuel + 1, ch =>
    match ch.turn with
    | .error e => .error e
    | .ok (.wait ch) => .ok ([], ch)
    | .ok (.go ch out) => (drain fuel ch).map fun r => (out.toList ++ r.1, r.2)

def feed (ch : V2Channel) (bytes : List UInt8) : Except String (List Named × V2Channel) :=
  let ch := { ch with recv_buf := ch.recv_buf ++ bytes }
  drain (ch.recv_buf.length + 1) ch

def feeds (ch : V2Channel) : List (List UInt8) → Except String (List Named × V2Channel)
  | [] => .ok ([], ch)
  | bytes :: chunks => do
    let r ← ch.feed bytes
    let rest ← r.2.feeds chunks
    pure (r.1 ++ rest.1, rest.2)

end V2Channel

end AvilaNode.V2
