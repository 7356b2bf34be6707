import AvilaNode.SigBatch
import AvilaNode.SignatureChecker

/-! Advice for batched signature checks: the checker that captures it and the one that consumes it. -/

variable {z : BitVec 256} {a : Advice}

namespace AvilaNode.SigBatch

variable (Point : Type) [AddCommGroup Point] [Curve Point] [DecidableEq Point]

/-- The advice on a valid signature: the point `s⁻¹ (z G + r Q)` and the key's second coordinate. -/
def produce_advice (z : BitVec 256) (sig : BitVec 256 × BitVec 256) (pubkey : PubKey) : Option Advice := do
  let r ← scalar_strict sig.1
  let s ← scalar_strict sig.2
  let zz := scalar_reduced z
  let odd ← tag_odd pubkey.1
  let q ← (Curve.decompress pubkey.2 odd : Option Point)
  let sinv ← invert s
  let rproj := (zz * sinv).val • (Curve.GENERATOR : Point) + (r * sinv).val • q
  if rproj = 0 then none
  else
    let byte : UInt8 := if y_is_odd rproj then 1 else 0
    let byte := if ORDER ≤ Curve.x rproj then byte ||| 2 else byte
    some ⟨byte, Curve.y q, some (Curve.y rproj)⟩

variable {Point} in
theorem produce_advice_byte {sig : BitVec 256 × BitVec 256} {pubkey : PubKey}
    (h : produce_advice Point z sig pubkey = some a) : a.byte ≤ 3 := by
  simp only [produce_advice, Option.bind_eq_bind, Option.bind_eq_some_iff] at h
  obtain ⟨r, -, s, -, odd, -, q, -, sinv, -, h⟩ := h
  split at h
  · cases h
  · obtain rfl := Option.some.inj h
    dsimp only
    split_ifs <;> decide

end AvilaNode.SigBatch

namespace AvilaNode.AdviceStream

open Interpreter OraclePrograms SigBatch TransactionSignatureChecker
open Secp256k1 (from_der_lax from_byte_array_compressed serialize_compact normalize_s)

def ADVICE_ABSENT : UInt8 := 0xFF

def compressed_key (pubkey : List UInt8) : Option (List UInt8) :=
  if pubkey.length = 33 then some pubkey
  else if pubkey.length = 65 then some (compress pubkey)
  else none

def record_key (pub33 : List UInt8) : PubKey := (pub33.headD 0, of_be_bytes (pub33.drop 1))

def key_bytes (pubkey : PubKey) : List UInt8 := pubkey.1 :: Hash256.to_bytes pubkey.2

theorem of_be_bytes_to_bytes (x : Hash256) : of_be_bytes x.to_bytes = x := by
  rw [of_be_bytes, Hash256.to_bytes_eq, List.reverse_reverse, ByteStrings.value_le (by simpa using x.isLt)]
  simp

theorem to_bytes_of_be_bytes {bytes : List UInt8} (h : bytes.length = 32) :
    Hash256.to_bytes (of_be_bytes bytes) = bytes := by
  have hlt : ByteStrings.value bytes.reverse < 2 ^ 256 := by
    simpa [h] using ByteStrings.value_lt bytes.reverse
  rw [Hash256.to_bytes_eq, of_be_bytes, BitVec.toNat_ofNat, Nat.mod_eq_of_lt hlt]
  have hle := ByteStrings.le_value bytes.reverse
  rw [List.length_reverse, h] at hle
  rw [hle, List.reverse_reverse]

section
variable [Secp256k1]

def sentinel (sig : List UInt8) : List UInt8 :=
  ((from_der_lax sig).map fun s => Hash256.to_bytes (serialize_compact s).1).getD (List.replicate 32 0) ++
    [ADVICE_ABSENT]

def advice_record (r : BitVec 256) (a : Advice) : List UInt8 :=
  Hash256.to_bytes r ++ [a.byte] ++ Hash256.to_bytes a.key_y ++ Hash256.to_bytes (a.nonce_y.getD 0)

variable (Point : Type) [AddCommGroup Point] [Curve Point] [DecidableEq Point]

def verified_entry (sig pubkey : List UInt8) (sighash : BitVec 256) : List UInt8 :=
  match from_der_lax sig, compressed_key pubkey with
  | some s, some pub33 =>
    let sig64 := serialize_compact (normalize_s s)
    match produce_advice Point sighash sig64 (record_key pub33) with
    | some a => advice_record sig64.1 a
    | none => sentinel sig
  | _, _ => sentinel sig

def capture_checker [Digests] : Checking (List UInt8) := fun checker q out =>
  match q with
  | .check_ecdsa_signature sig pubkey script_code sigversion =>
    if !checker.passes_gates sig pubkey sigversion then (false, out)
    else
      let sighash := checker.sighash (sig.getLastD 0) script_code sigversion
      let ok := verify_ecdsa_signature sig.dropLast pubkey sighash
      (ok, out ++ if ok then verified_entry Point sig.dropLast pubkey sighash else sentinel sig.dropLast)
  | q => (checker.answer q, out)

def check_input_scripts_capture [Digests] (tx : Transaction) (spent_outputs : List TxOut) (flags : ScriptFlags)
    (out : List UInt8) : Except Halt Unit × List UInt8 :=
  check_scripts_with (capture_checker Point) tx spent_outputs flags out

end

structure Deferral where
  cursor : ℕ
  records : List Record
  job_of : List ℕ
  stat : ℕ × ℕ
deriving DecidableEq

/-- The entry at `at`, `none` for a sentinel's advice, and where the cursor goes. -/
def take_entry (entries : List UInt8) (cursor : ℕ) : Option (List UInt8 × Option Advice) × ℕ :=
  let head := (entries.drop cursor).take 33
  let rest := (entries.drop (cursor + 33)).take 64
  if head.length < 33 then (none, cursor)
  else if head.getD 32 0 = ADVICE_ABSENT then (some (head.take 32, none), cursor + 33)
  else if rest.length < 64 then (none, entries.length)
  else
    (some (head.take 32, some ⟨head.getD 32 0, of_be_bytes (rest.take 32), some (of_be_bytes (rest.drop 32))⟩),
      cursor + 97)

section
variable [Secp256k1]

def normalize (sig pubkey : List UInt8) : Option ((BitVec 256 × BitVec 256) × List UInt8) :=
  match from_der_lax sig, compressed_key pubkey with
  | some s, some pub33 =>
    if (from_byte_array_compressed pub33).isNone then none else some (serialize_compact (normalize_s s), pub33)
  | _, _ => none

/-- The advice of an entry for the signature of `r`, and the cursor: an entry for another one ends the stream. -/
def claim_entry (entries : List UInt8) (entry : Option (List UInt8 × Option Advice)) (cursor : ℕ) (r : BitVec 256) :
    Option Advice × ℕ :=
  match entry with
  | none => (none, cursor)
  | some (entry_r, advice) => if entry_r = Hash256.to_bytes r then (advice, cursor) else (none, entries.length)

def check_deferred (entries : List UInt8) (tag : ℕ) (sig pubkey : List UInt8) (sighash : BitVec 256) (st : Deferral) :
    Bool × Deferral :=
  let taken := take_entry entries st.cursor
  match normalize sig pubkey with
  | none => (false, { st with cursor := taken.2 })
  | some (sig64, pub33) =>
    match claim_entry entries taken.1 taken.2 sig64.1 with
    | (some advice, cursor) =>
      (true, ⟨cursor, st.records ++ [⟨sighash, sig64, record_key pub33, advice⟩], st.job_of ++ [tag],
        (st.stat.1 + 1, st.stat.2)⟩)
    | (none, cursor) =>
      (verify_ecdsa_signature sig pubkey sighash, { st with cursor := cursor, stat := (st.stat.1, st.stat.2 + 1) })

def deferred_checker [Digests] (entries : List UInt8) (tag : ℕ) : Checking Deferral := fun checker q st =>
  match q with
  | .check_ecdsa_signature sig pubkey script_code sigversion =>
    if !checker.passes_gates sig pubkey sigversion then (false, st)
    else
      check_deferred entries tag sig.dropLast pubkey (checker.sighash (sig.getLastD 0) script_code sigversion) st
  | q => (checker.answer q, st)

def check_input_scripts_advised [Digests] (tx : Transaction) (spent_outputs : List TxOut) (flags : ScriptFlags)
    (entries : List UInt8) (tag : ℕ) (st : Deferral) : Except Halt Unit × Deferral :=
  check_scripts_with (deferred_checker entries tag) tx spent_outputs flags { st with cursor := 0 }

omit [Secp256k1] in
theorem take_entry_sentinel {r : List UInt8} (hr : r.length = 32) (before rest : List UInt8) :
    take_entry (before ++ (r ++ [ADVICE_ABSENT]) ++ rest) before.length = (some (r, none), before.length + 33) := by
  have hhead : ((before ++ (r ++ [ADVICE_ABSENT]) ++ rest).drop before.length).take 33 = r ++ [ADVICE_ABSENT] := by
    rw [List.append_assoc, List.drop_left]
    exact List.take_left' (by simp [hr])
  unfold take_entry
  rw [hhead]
  simp [hr, List.take_left' hr]

omit [Secp256k1] in
theorem take_entry_record (ha : a.byte ≤ 3) (r : Hash256) (before rest : List UInt8) :
    take_entry (before ++ advice_record r a ++ rest) before.length =
      (some (r.to_bytes, some ⟨a.byte, a.key_y, some (a.nonce_y.getD 0)⟩), before.length + 97) := by
  have hflag : a.byte ≠ ADVICE_ABSENT := by
    rintro hbyte
    rw [hbyte] at ha
    exact absurd ha (by decide)
  have hy := Hash256.length_to_bytes a.key_y
  have hr := r.length_to_bytes
  have hhead : ((before ++ advice_record r a ++ rest).drop before.length).take 33 = r.to_bytes ++ [a.byte] := by
    rw [List.append_assoc, List.drop_left, advice_record, List.append_assoc, List.append_assoc]
    exact List.take_left' (by simp [hr])
  have hrest : ((before ++ advice_record r a ++ rest).drop (before.length + 33)).take 64 =
      Hash256.to_bytes a.key_y ++ Hash256.to_bytes (a.nonce_y.getD 0) := by
    have hskip : (before ++ (r.to_bytes ++ [a.byte])).length = before.length + 33 := by simp [hr]
    rw [advice_record, ← hskip, ← List.append_assoc, ← List.append_assoc, ← List.append_assoc,
      List.append_assoc _ _ rest,
      List.append_assoc _ _ (_ ++ rest), List.append_assoc before, List.drop_left, ← List.append_assoc]
    exact List.take_left' (by simp [hy])
  unfold take_entry
  rw [hhead, hrest]
  simp [hr, hflag, hy, List.take_left' hr, List.take_left' hy, List.drop_left' hy, of_be_bytes_to_bytes]

theorem sentinel_eq (sig : List UInt8) : ∃ r : List UInt8, r.length = 32 ∧ sentinel sig = r ++ [ADVICE_ABSENT] ∧
    ∀ s, from_der_lax sig = some s → r = Hash256.to_bytes (serialize_compact s).1 := by
  refine ⟨_, ?_, rfl, ?_⟩
  · cases from_der_lax sig with
    | none => rfl
    | some s => exact Hash256.length_to_bytes _
  · intro s hs
    rw [hs]
    rfl

omit [Secp256k1] in
theorem advice_record_length (r : BitVec 256) (a : Advice) : (advice_record r a).length = 97 := by
  simp [advice_record]

variable {pubkey sig pub33 : List UInt8} {st : Deferral}

variable {key : Secp256k1.PublicKey} {s : Secp256k1.Signature} (tag : ℕ)

theorem parse_compressed (h : parse_public_key pubkey = some key) :
    ∃ pub33, compressed_key pubkey = some pub33 ∧ pub33.length = 33 ∧
      from_byte_array_compressed pub33 = some key := by
  rw [parse_public_key] at h
  rw [compressed_key]
  split_ifs at h ⊢ with h33 h65
  · exact ⟨pubkey, rfl, h33, h⟩
  · exact ⟨compress pubkey, rfl, by simp [compress, h65], Secp256k1.compressed_of_uncompressed h65 h⟩

theorem verify_ecdsa_signature_iff :
    verify_ecdsa_signature sig pubkey z = true ↔ ∃ key s, parse_public_key pubkey = some key ∧
      from_der_lax sig = some s ∧ Secp256k1.verify (normalize_s s) z key = true := by
  unfold verify_ecdsa_signature
  cases parse_public_key pubkey with
  | none => simp
  | some key => cases from_der_lax sig <;> simp

theorem normalize_of_verify (h : verify_ecdsa_signature sig pubkey z = true) : ∃ s pub33 key,
    from_der_lax sig = some s ∧
      compressed_key pubkey = some pub33 ∧ pub33.length = 33 ∧ from_byte_array_compressed pub33 = some key ∧
      Secp256k1.verify (normalize_s s) z key = true ∧
      normalize sig pubkey = some (serialize_compact (normalize_s s), pub33) := by
  obtain ⟨key, s, hkey, hs, hv⟩ := verify_ecdsa_signature_iff.mp h
  obtain ⟨pub33, hpub, hlen, hparse⟩ := parse_compressed hkey
  exact ⟨s, pub33, key, hs, hpub, hlen, hparse, hv, by simp [normalize, hs, hpub, hparse]⟩

theorem normalize_eq_some {sig64 : BitVec 256 × BitVec 256} (h : normalize sig pubkey = some (sig64, pub33)) :
    ∃ s, from_der_lax sig = some s ∧ sig64.1 = (serialize_compact s).1 := by
  unfold normalize at h
  cases hs : from_der_lax sig with
  | none => simp [hs] at h
  | some s =>
    cases hpub : compressed_key pubkey with
    | none => simp [hs, hpub] at h
    | some key =>
      rw [hs, hpub] at h
      simp only at h
      split_ifs at h
      obtain ⟨rfl, rfl⟩ := Prod.mk.inj (Option.some.inj h)
      exact ⟨s, rfl, Secp256k1.serialize_normalize s⟩

def Verified (rec : Record) : Prop := verify_ecdsa_compact (key_bytes rec.pubkey) rec.sig rec.z = true

theorem verified_record (hlen : pub33.length = 33) (hkey : from_byte_array_compressed pub33 = some key)
    (hv : Secp256k1.verify (normalize_s s) z key = true) (a : Advice) :
    Verified ⟨z, serialize_compact (normalize_s s), record_key pub33, a⟩ := by
  have hbytes : key_bytes (record_key pub33) = pub33 := by
    cases pub33 with
    | nil => simp at hlen
    | cons tag x =>
      have hx : x.length = 32 := by simpa using hlen
      simp [key_bytes, record_key, to_bytes_of_be_bytes hx]
  have hparse : parse_public_key pub33 = some key := by rw [parse_public_key, if_pos hlen, hkey]
  simp [Verified, verify_ecdsa_compact, hbytes, hparse, Secp256k1.from_compact_serialize, hv]

def Defers (tag : ℕ) (st st' : Deferral) : Prop :=
  ∃ recs : List Record, st'.records = st.records ++ recs ∧ st'.job_of = st.job_of ++ List.replicate recs.length tag ∧
    ∀ rec ∈ recs, Verified rec

theorem Defers.none {tag : ℕ} {st' : Deferral} (hrecords : st'.records = st.records) (hjob : st'.job_of = st.job_of) :
    Defers tag st st' := ⟨[], by simp [hrecords], by simp [hjob], by simp⟩

theorem Defers.trans {tag : ℕ} {st' st'' : Deferral} (h : Defers tag st st') (h' : Defers tag st' st'') :
    Defers tag st st'' := by
  obtain ⟨recs, hrecords, hjob, hv⟩ := h
  obtain ⟨recs', hrecords', hjob', hv'⟩ := h'
  refine ⟨recs ++ recs', by rw [hrecords', hrecords, List.append_assoc], ?_, ?_⟩
  · rw [hjob', hjob, List.append_assoc, List.length_append, List.replicate_add]
  · intro rec hrec
    exact (List.mem_append.mp hrec).elim (hv rec) (hv' rec)

theorem check_deferred_sentinel (sig pubkey : List UInt8) (z : BitVec 256) (before rest : List UInt8)
    (hst : st.cursor = before.length) :
    ∃ stat, check_deferred (before ++ sentinel sig ++ rest) tag sig pubkey z st =
      (verify_ecdsa_signature sig pubkey z, { st with cursor := before.length + 33, stat := stat }) := by
  obtain ⟨r, hr, hentry, hlax⟩ := sentinel_eq sig
  have htake := take_entry_sentinel hr before rest
  rw [← hentry] at htake
  cases hn : normalize sig pubkey with
  | none =>
    have hfails : verify_ecdsa_signature sig pubkey z = false := by
      by_contra hv
      obtain ⟨s, pub33, key, -, -, -, -, -, hsome⟩ := normalize_of_verify (Bool.not_eq_false _ ▸ hv)
      simp [hn] at hsome
    exact ⟨st.stat, by simp only [check_deferred, hst, htake, hn, hfails]⟩
  | some found =>
    obtain ⟨s, hs, hsig⟩ := normalize_eq_some hn
    have hclaim : claim_entry (before ++ sentinel sig ++ rest) (some (r, none)) (before.length + 33) found.1.1 =
        (none, before.length + 33) := by
      rw [claim_entry, hlax s hs, hsig, if_pos rfl]
    exact ⟨(st.stat.1, st.stat.2 + 1), by simp only [check_deferred, hst, htake, hn, hclaim]⟩

theorem check_deferred_record (z : BitVec 256) (before rest : List UInt8) (ha : a.byte ≤ 3)
    (hn : normalize sig pubkey = some (serialize_compact (normalize_s s), pub33)) (hst : st.cursor = before.length) :
    check_deferred (before ++ advice_record (serialize_compact (normalize_s s)).1 a ++ rest) tag sig pubkey z st =
      (true, ⟨before.length + 97,
        st.records ++ [⟨z, serialize_compact (normalize_s s), record_key pub33,
          ⟨a.byte, a.key_y, some (a.nonce_y.getD 0)⟩⟩],
        st.job_of ++ [tag], (st.stat.1 + 1, st.stat.2)⟩) := by
  have htake := take_entry_record ha (serialize_compact (normalize_s s)).1 before rest
  simp only [check_deferred, hst, htake, hn, claim_entry, if_true]

variable (Point : Type) [AddCommGroup Point] [Curve Point] [DecidableEq Point]

def check_entry (sig pubkey : List UInt8) (z : BitVec 256) : List UInt8 :=
  if verify_ecdsa_signature sig pubkey z then verified_entry Point sig pubkey z else sentinel sig

theorem check_entry_cases (sig pubkey : List UInt8) (z : BitVec 256) :
    check_entry Point sig pubkey z = sentinel sig ∨
      ∃ s pub33 key a, compressed_key pubkey = some pub33 ∧ pub33.length = 33 ∧
        from_byte_array_compressed pub33 = some key ∧ Secp256k1.verify (normalize_s s) z key = true ∧
        normalize sig pubkey = some (serialize_compact (normalize_s s), pub33) ∧ a.byte ≤ 3 ∧
        verify_ecdsa_signature sig pubkey z = true ∧
        check_entry Point sig pubkey z = advice_record (serialize_compact (normalize_s s)).1 a := by
  unfold check_entry
  split_ifs with hv
  · obtain ⟨s, pub33, key, hs, hpub, hlen, hkey, hverify, hn⟩ := normalize_of_verify hv
    simp only [verified_entry, hs, hpub]
    cases ha : produce_advice Point z (serialize_compact (normalize_s s)) (record_key pub33) with
    | none => exact Or.inl rfl
    | some a => exact Or.inr ⟨s, pub33, key, a, rfl, hlen, hkey, hverify, hn, produce_advice_byte ha, hv, rfl⟩
  · exact Or.inl rfl

theorem check_entry_length (sig pubkey : List UInt8) (z : BitVec 256) :
    (check_entry Point sig pubkey z).length = 33 ∨ (check_entry Point sig pubkey z).length = 97 := by
  rcases check_entry_cases Point sig pubkey z with h | ⟨s, pub33, key, a, -, -, -, -, -, -, -, h⟩
  · obtain ⟨r, hr, hentry, -⟩ := sentinel_eq sig
    left
    simp [h, hentry, hr]
  · right
    rw [h, advice_record_length]

theorem check_deferred_spec (sig pubkey : List UInt8) (z : BitVec 256) (before rest : List UInt8)
    (hst : st.cursor = before.length) :
    let r := check_deferred (before ++ check_entry Point sig pubkey z ++ rest) tag sig pubkey z st
    r.1 = verify_ecdsa_signature sig pubkey z ∧ r.2.cursor = (before ++ check_entry Point sig pubkey z).length ∧
      Defers tag st r.2 := by
  rcases check_entry_cases Point sig pubkey z with h | ⟨s, pub33, key, a, -, hlen, hkey, hverify, hn, ha, hv, h⟩
  · obtain ⟨r, hr, hentry, -⟩ := sentinel_eq sig
    obtain ⟨stat, hcheck⟩ := check_deferred_sentinel tag sig pubkey z before rest hst
    rw [h, hcheck]
    exact ⟨rfl, by simp [hentry, hr], Defers.none rfl rfl⟩
  · rw [h, check_deferred_record tag z before rest ha hn hst, hv]
    refine ⟨rfl, by simp [advice_record_length], _, rfl, rfl, ?_⟩
    simpa using verified_record hlen hkey hverify _

end

end AvilaNode.AdviceStream
