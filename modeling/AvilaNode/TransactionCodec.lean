import AvilaNode.ByteReader
import AvilaNode.MerkleBinding

/-! Transactions on the wire: the legacy and the witness serialization, and the decoder of both. -/

namespace AvilaNode

open ByteReader ByteStrings

def MAX_SIZE : ℕ := 0x02000000

inductive DecodeError where
  | UnexpectedEnd (needed remaining : ℕ)
  | NonCanonicalCompactSize
  | CompactSizeTooLarge (value : ℕ)
  | TrailingBytes (count : ℕ)
  | SuperfluousWitness
  | UnknownTransactionFlags (flags : UInt8)
deriving DecidableEq, Repr

/-- The bytes left are all a read depends on: a failed read ends the decode, so where it leaves the
cursor is never seen. -/
abbrev Decoder := ByteReader DecodeError

namespace Decoder

def read_bytes (len : ℕ) : Decoder (List UInt8) := fun bytes =>
  if bytes.length < len then .error (.UnexpectedEnd len bytes.length)
  else .ok (bytes.take len, bytes.drop len)

def read_le (width : ℕ) : Decoder ℕ := do
  let bytes ← read_bytes width
  pure (value bytes)

def read_u8 : Decoder UInt8 := do
  let bytes ← read_bytes 1
  pure (bytes.headD 0)

def read_u16_le : Decoder ℕ := read_le 2
def read_u32_le : Decoder ℕ := read_le 4
def read_u64_le : Decoder ℕ := read_le 8

def read_i64_le : Decoder ℤ := do
  let bits ← read_le 8
  pure (BitVec.ofNat 64 bits).toInt

def read_hash : Decoder Hash256 := do
  let bytes ← read_bytes 32
  pure (BitVec.ofNat 256 (value bytes.reverse))

def read_payload (width least : ℕ) : Decoder ℕ := do
  let value ← read_le width
  if value < least then throw .NonCanonicalCompactSize else pure value

def read_prefixed (head : UInt8) : Decoder ℕ :=
  if head < 253 then pure head.toNat
  else if head = 253 then read_payload 2 253
  else if head = 254 then read_payload 4 0x10000
  else read_payload 8 0x100000000

def read_compact_size : Decoder ℕ := do
  let head ← read_u8
  let value ← read_prefixed head
  if MAX_SIZE < value then throw (.CompactSizeTooLarge value) else pure value

def read_var_bytes : Decoder (List UInt8) := do
  let len ← read_compact_size
  read_bytes len

end Decoder

def write_compact_size (value : ℕ) : List UInt8 :=
  if value < 253 then [UInt8.ofNat value]
  else if value ≤ 0xffff then 253 :: le 2 value
  else if value ≤ 0xffffffff then 254 :: le 4 value
  else 255 :: le 8 value

def write_var_bytes (bytes : List UInt8) : List UInt8 := write_compact_size bytes.length ++ bytes

def write_i64 (value : ℤ) : List UInt8 := le 8 (BitVec.ofInt 64 value).toNat

namespace Transaction

open Decoder

def write_txin_no_witness (input : TxIn) : List UInt8 :=
  input.previous_output.txid.to_bytes ++ le 4 input.previous_output.vout
    ++ write_var_bytes input.script_sig ++ le 4 input.sequence

def write_txout (output : TxOut) : List UInt8 :=
  write_i64 output.value ++ write_var_bytes output.script_pubkey

def write_vin (inputs : List TxIn) : List UInt8 :=
  write_compact_size inputs.length ++ inputs.flatMap write_txin_no_witness

def write_vout (outputs : List TxOut) : List UInt8 :=
  write_compact_size outputs.length ++ outputs.flatMap write_txout

def write_without_witness (tx : Transaction) : List UInt8 :=
  le 4 tx.version
    ++ write_vin tx.inputs
    ++ write_vout tx.outputs
    ++ le 4 tx.lock_time

def write_witness (witness : List (List UInt8)) : List UInt8 :=
  write_compact_size witness.length ++ witness.flatMap write_var_bytes

def write_with_witness (tx : Transaction) : List UInt8 :=
  if tx.has_witness then
    le 4 tx.version ++ [0x00] ++ [0x01]
      ++ write_vin tx.inputs
      ++ write_vout tx.outputs
      ++ tx.inputs.flatMap (fun input => write_witness input.witness)
      ++ le 4 tx.lock_time
  else tx.write_without_witness

def encode (tx : Transaction) : List UInt8 := tx.write_with_witness

def read_txin : Decoder TxIn := do
  let txid ← read_hash
  let vout ← read_u32_le
  let script_sig ← read_var_bytes
  let sequence ← read_u32_le
  pure ⟨⟨txid, vout⟩, script_sig, sequence, []⟩

def read_txout : Decoder TxOut := do
  let value ← read_i64_le
  let script_pubkey ← read_var_bytes
  pure ⟨value, script_pubkey⟩

def read_vin : Decoder (List TxIn) := read_compact_size >>= repeated read_txin

def read_vout : Decoder (List TxOut) := read_compact_size >>= repeated read_txout

def read_witness : Decoder (List (List UInt8)) := read_compact_size >>= repeated read_var_bytes

def read_witnesses : List TxIn → Decoder (List TxIn)
  | [] => pure []
  | input :: inputs => do
    let witness ← read_witness
    let inputs ← read_witnesses inputs
    pure ({ input with witness := witness } :: inputs)

/-- The flags byte after an empty `vin`, which may be the extended format's marker: what follows it, and
whether a witness does. -/
def read_ins_and_outs : Decoder (UInt8 × List TxIn × List TxOut) := do
  let inputs ← read_vin
  if inputs.isEmpty then
    let flags ← read_u8
    if flags ≠ 0 then
      let inputs ← read_vin
      let outputs ← read_vout
      pure (flags, inputs, outputs)
    else pure (flags, inputs, [])
  else
    let outputs ← read_vout
    pure (0, inputs, outputs)

def read_witness_record (flags : UInt8) (inputs : List TxIn) : Decoder (UInt8 × List TxIn) :=
  if flags &&& 1 ≠ 0 then do
    let inputs ← read_witnesses inputs
    if inputs.any fun input => !input.witness.isEmpty then pure (flags ^^^ 1, inputs)
    else throw .SuperfluousWitness
  else pure (flags, inputs)

def read : Decoder Transaction := do
  let version ← read_u32_le
  let (flags, inputs, outputs) ← read_ins_and_outs
  let (flags, inputs) ← read_witness_record flags inputs
  if flags ≠ 0 then throw (.UnknownTransactionFlags flags)
  else
    let lock_time ← read_u32_le
    pure ⟨version, inputs, outputs, lock_time⟩

def decode (bytes : List UInt8) : Except DecodeError Transaction :=
  match read bytes with
  | .error e => .error e
  | .ok (tx, []) => .ok tx
  | .ok (_, rest) => .error (.TrailingBytes rest.length)

end Transaction

namespace Decoder

theorem read_bytes_inverts (len : ℕ) : Inverts (read_bytes len) id (fun bytes => bytes.length = len) where
  read_write rest h := by
    simp [read_bytes, ← h]
  write_read := by
    intro bytes a rest h
    simp only [read_bytes] at h
    split at h
    · cases h
    · cases h
      exact ⟨by rw [List.length_take]; omega, by simp⟩

theorem read_le_inverts (width : ℕ) : Inverts (read_le width) (le width) (fun n => n < 256 ^ width) := by
  apply (read_bytes_inverts width).map (g := le width)
  · intro n hn
    exact ⟨length_le width n, value_le hn⟩
  · rintro bytes rfl
    exact ⟨value_lt bytes, le_value bytes⟩

theorem read_u8_inverts : Inverts read_u8 (fun byte => [byte]) (fun _ => True) := by
  apply (read_bytes_inverts 1).map (g := fun byte => [byte])
  · simp
  · intro bytes h
    obtain ⟨byte, rfl⟩ := List.length_eq_one_iff.mp h
    simp

theorem read_u32_le_inverts : Inverts read_u32_le (le 4) (fun n => n < 2 ^ 32) :=
  (read_le_inverts 4).mono fun n => by norm_num

theorem read_i64_le_inverts : Inverts read_i64_le write_i64 (fun value => i64_fits value = true) := by
  apply (read_le_inverts 8).map (g := fun value => (BitVec.ofInt 64 value).toNat)
  · intro value hv
    rw [i64_fits_iff, I64_MIN, I64_MAX] at hv
    refine ⟨by simpa using (BitVec.ofInt 64 value).isLt, ?_⟩
    rw [BitVec.ofNat_toNat, BitVec.setWidth_eq, BitVec.toInt_ofInt]
    apply Int.bmod_eq_of_le <;> simp <;> omega
  · intro bits hb
    rw [i64_fits_iff, I64_MIN, I64_MAX, BitVec.ofInt_toInt, BitVec.toNat_ofNat]
    have hl := (BitVec.ofNat 64 bits).le_toInt
    have hu := (BitVec.ofNat 64 bits).toInt_lt
    norm_num at hl hu hb
    exact ⟨⟨by omega, by omega⟩, by omega⟩

theorem read_hash_inverts : Inverts read_hash Hash256.to_bytes (fun _ => True) := by
  apply (read_bytes_inverts 32).map (g := Hash256.to_bytes)
  · intro hash _
    refine ⟨Hash256.length_to_bytes hash, ?_⟩
    rw [Hash256.to_bytes_eq, List.reverse_reverse, value_le (by simpa using hash.isLt)]
    simp
  · intro bytes h
    refine ⟨trivial, ?_⟩
    have hv : value bytes.reverse < 2 ^ 256 := by simpa [h] using value_lt bytes.reverse
    rw [Hash256.to_bytes_eq, BitVec.toNat_ofNat, Nat.mod_eq_of_lt hv]
    have hr := le_value bytes.reverse
    rw [List.length_reverse, h] at hr
    rw [hr, List.reverse_reverse]

theorem read_payload_inverts (width least : ℕ) :
    Inverts (read_payload width least) (le width) (fun n => least ≤ n ∧ n < 256 ^ width) where
  read_write := by
    rintro n rest ⟨hl, hn⟩
    rw [read_payload, bind_ok ((read_le_inverts width).read_write rest hn), if_neg (by omega)]
    rfl
  write_read := by
    intro bytes n rest h
    obtain ⟨v, middle, hv, h⟩ := bind_eq_ok.mp h
    split at h
    · cases h
    · cases h
      obtain ⟨hb, hw⟩ := (read_le_inverts width).write_read hv
      exact ⟨⟨by omega, hb⟩, hw⟩

theorem read_compact_size_inverts : Inverts read_compact_size write_compact_size (fun n => n ≤ MAX_SIZE) where
  read_write := by
    intro n rest hn
    have hu8 (head : UInt8) (bytes : List UInt8) : read_u8 (head :: bytes) = .ok (head, bytes) :=
      read_u8_inverts.read_write (a := head) bytes trivial
    have hmax : (if MAX_SIZE < n then throw (.CompactSizeTooLarge n) else pure n : Decoder ℕ) rest =
      .ok (n, rest) := by
      rw [if_neg (by omega)]
      rfl
    unfold write_compact_size
    split
    · rename_i h
      have hb : (UInt8.ofNat n).toNat = n := by rw [UInt8.toNat_ofNat']; omega
      have hlt : UInt8.ofNat n < 253 := by rw [UInt8.lt_iff_toNat_lt, hb]; exact h
      have hp : read_prefixed (UInt8.ofNat n) rest = .ok (n, rest) := by
        rw [read_prefixed, if_pos hlt, hb]
        rfl
      rw [List.singleton_append, read_compact_size, bind_ok (hu8 _ _), bind_ok hp]
      exact hmax
    · split
      · have hp : read_prefixed 253 (le 2 n ++ rest) = .ok (n, rest) :=
          (read_payload_inverts 2 253).read_write rest ⟨by omega, by norm_num; omega⟩
        rw [List.cons_append, read_compact_size, bind_ok (hu8 _ _), bind_ok hp]
        exact hmax
      · split
        · have hp : read_prefixed 254 (le 4 n ++ rest) = .ok (n, rest) :=
            (read_payload_inverts 4 0x10000).read_write rest ⟨by omega, by norm_num; omega⟩
          rw [List.cons_append, read_compact_size, bind_ok (hu8 _ _), bind_ok hp]
          exact hmax
        · simp only [MAX_SIZE] at hn
          omega
  write_read := by
    intro bytes n rest hread
    obtain ⟨head, rest', hu, h⟩ := bind_eq_ok.mp hread
    obtain ⟨v, rest'', hv, h⟩ := bind_eq_ok.mp h
    obtain ⟨-, rfl⟩ := read_u8_inverts.write_read hu
    split at h
    · cases h
    rename_i hmax
    cases h
    refine ⟨by omega, ?_⟩
    unfold write_compact_size
    unfold read_prefixed at hv
    split at hv
    · rename_i hlt
      cases hv
      have hn : head.toNat < 253 := UInt8.lt_iff_toNat_lt.mp hlt
      rw [if_pos hn]
      simp
    · split at hv
      · rename_i _ hh
        obtain ⟨⟨hl, hb⟩, rfl⟩ := (read_payload_inverts 2 253).write_read hv
        norm_num at hb
        rw [if_neg (by omega), if_pos (by omega), hh]
        rfl
      · split at hv
        · rename_i _ _ hh
          obtain ⟨⟨hl, hb⟩, rfl⟩ := (read_payload_inverts 4 0x10000).write_read hv
          norm_num at hb
          rw [if_neg (by omega), if_neg (by omega), if_pos (by omega), hh]
          rfl
        · obtain ⟨⟨hl, hb⟩, rfl⟩ := (read_payload_inverts 8 0x100000000).write_read hv
          simp only [MAX_SIZE] at hmax
          omega

theorem read_var_bytes_inverts : Inverts read_var_bytes write_var_bytes (fun bytes => bytes.length ≤ MAX_SIZE) where
  read_write := by
    intro bytes rest h
    rw [write_var_bytes, List.append_assoc, read_var_bytes, bind_ok (read_compact_size_inverts.read_write _ h)]
    exact (read_bytes_inverts bytes.length).read_write rest rfl
  write_read := by
    intro bytes a rest hread
    obtain ⟨len, middle, hl, h⟩ := bind_eq_ok.mp hread
    obtain ⟨hn, hw⟩ := read_compact_size_inverts.write_read hl
    obtain ⟨hlen, hr⟩ := (read_bytes_inverts len).write_read h
    rw [← hw, ← hr, ← hlen, write_var_bytes, List.append_assoc]
    exact ⟨hlen ▸ hn, rfl⟩

end Decoder

def TxIn.Encodable (input : TxIn) : Prop :=
  input.previous_output.vout < 2 ^ 32 ∧ input.script_sig.length ≤ MAX_SIZE ∧ input.sequence < 2 ^ 32
    ∧ input.witness.length ≤ MAX_SIZE ∧ ∀ item ∈ input.witness, item.length ≤ MAX_SIZE

def TxOut.Encodable (output : TxOut) : Prop :=
  i64_fits output.value = true ∧ output.script_pubkey.length ≤ MAX_SIZE

structure Transaction.Encodable (tx : Transaction) : Prop where
  version : tx.version < 2 ^ 32
  inputs : tx.inputs.length ≤ MAX_SIZE ∧ ∀ input ∈ tx.inputs, input.Encodable
  outputs : tx.outputs.length ≤ MAX_SIZE ∧ ∀ output ∈ tx.outputs, output.Encodable
  lock_time : tx.lock_time < 2 ^ 32

def TxIn.bare (input : TxIn) : TxIn := { input with witness := [] }

theorem TxIn.Encodable.bare {input : TxIn} (h : input.Encodable) : input.bare.Encodable :=
  ⟨h.1, h.2.1, h.2.2.1, by simp [TxIn.bare], by simp [TxIn.bare]⟩

namespace Transaction

open Decoder

theorem read_txin_inverts :
    Inverts read_txin write_txin_no_witness (fun input => input.Encodable ∧ input.witness = []) where
  read_write := by
    rintro ⟨⟨txid, vout⟩, script_sig, sequence, witness⟩ rest ⟨⟨hv, hl, hs, -, -⟩, hw⟩
    simp only at hv hl hs hw
    subst hw
    simp only [write_txin_no_witness, List.append_assoc]
    rw [read_txin, bind_ok (read_hash_inverts.read_write _ trivial), bind_ok (read_u32_le_inverts.read_write _ hv),
      bind_ok (read_var_bytes_inverts.read_write _ hl), bind_ok (read_u32_le_inverts.read_write _ hs)]
    rfl
  write_read := by
    intro bytes input rest hread
    obtain ⟨txid, b₁, ht, h⟩ := bind_eq_ok.mp hread
    obtain ⟨vout, b₂, hv, h⟩ := bind_eq_ok.mp h
    obtain ⟨script_sig, b₃, hl, h⟩ := bind_eq_ok.mp h
    obtain ⟨sequence, b₄, hs, h⟩ := bind_eq_ok.mp h
    cases h
    obtain ⟨-, ht⟩ := read_hash_inverts.write_read ht
    obtain ⟨hvr, hv⟩ := read_u32_le_inverts.write_read hv
    obtain ⟨hlr, hl⟩ := read_var_bytes_inverts.write_read hl
    obtain ⟨hsr, hs⟩ := read_u32_le_inverts.write_read hs
    refine ⟨⟨⟨hvr, hlr, hsr, by simp, by simp⟩, rfl⟩, ?_⟩
    simp only [write_txin_no_witness, List.append_assoc]
    rw [hs, hl, hv, ht]

theorem read_txout_inverts : Inverts read_txout write_txout TxOut.Encodable where
  read_write := by
    rintro ⟨value, script_pubkey⟩ rest ⟨hv, hl⟩
    rw [write_txout, List.append_assoc, read_txout, bind_ok (read_i64_le_inverts.read_write _ hv),
      bind_ok (read_var_bytes_inverts.read_write _ hl)]
    rfl
  write_read := by
    intro bytes output rest hread
    obtain ⟨value, b₁, hv, h⟩ := bind_eq_ok.mp hread
    obtain ⟨script_pubkey, b₂, hl, h⟩ := bind_eq_ok.mp h
    cases h
    obtain ⟨hvr, hv⟩ := read_i64_le_inverts.write_read hv
    obtain ⟨hlr, hl⟩ := read_var_bytes_inverts.write_read hl
    exact ⟨⟨hvr, hlr⟩, by rw [write_txout, List.append_assoc, hl, hv]⟩

theorem read_vin_inverts : Inverts read_vin write_vin
    (fun inputs => inputs.length ≤ MAX_SIZE ∧ ∀ input ∈ inputs, input.Encodable ∧ input.witness = []) :=
  read_compact_size_inverts.counted read_txin_inverts

theorem read_vout_inverts : Inverts read_vout write_vout
    (fun outputs => outputs.length ≤ MAX_SIZE ∧ ∀ output ∈ outputs, output.Encodable) :=
  read_compact_size_inverts.counted read_txout_inverts

theorem read_witness_inverts : Inverts read_witness write_witness
    (fun witness => witness.length ≤ MAX_SIZE ∧ ∀ item ∈ witness, item.length ≤ MAX_SIZE) :=
  read_compact_size_inverts.counted read_var_bytes_inverts

variable (inputs : List TxIn) (tx : Transaction)

theorem read_witnesses_inverts : Inverts (read_witnesses inputs)
    (fun filled => filled.flatMap fun input => write_witness input.witness)
    (fun filled => filled.map TxIn.bare = inputs.map TxIn.bare
      ∧ ∀ input ∈ filled, input.witness.length ≤ MAX_SIZE ∧ ∀ item ∈ input.witness, item.length ≤ MAX_SIZE) where
  read_write := by
    induction inputs with
    | nil =>
      rintro filled rest ⟨hb, -⟩
      rw [List.map_nil, List.map_eq_nil_iff] at hb
      subst hb
      rfl
    | cons input inputs ih =>
      rintro filled rest ⟨hb, hv⟩
      cases filled with
      | nil => simp at hb
      | cons first filled =>
        rw [List.forall_mem_cons] at hv
        rw [List.map_cons, List.map_cons, List.cons.injEq] at hb
        have hf : { input with witness := first.witness } = first := by
          have h1 := congrArg TxIn.previous_output hb.1
          have h2 := congrArg TxIn.script_sig hb.1
          have h3 := congrArg TxIn.sequence hb.1
          simp only [TxIn.bare] at h1 h2 h3
          cases first
          simp_all
        rw [List.flatMap_cons, List.append_assoc, read_witnesses, bind_ok (read_witness_inverts.read_write _ hv.1),
          bind_ok (ih rest ⟨hb.2, hv.2⟩), hf]
        rfl
  write_read := by
    induction inputs with
    | nil =>
      intro bytes filled rest h
      simp only [read_witnesses, pure_apply, Except.ok.injEq, Prod.mk.injEq] at h
      obtain ⟨rfl, rfl⟩ := h
      simp
    | cons input inputs ih =>
      intro bytes filled rest h
      obtain ⟨witness, b₁, hw, h⟩ := bind_eq_ok.mp h
      obtain ⟨tail, b₂, ht, h⟩ := bind_eq_ok.mp h
      cases h
      obtain ⟨hwr, hw⟩ := read_witness_inverts.write_read hw
      obtain ⟨⟨hb, hv⟩, ht⟩ := ih ht
      refine ⟨⟨?_, ?_⟩, ?_⟩
      · rw [List.map_cons, List.map_cons, hb]
        rfl
      · exact List.forall_mem_cons.mpr ⟨hwr, hv⟩
      · rw [List.flatMap_cons, List.append_assoc, ht, hw]

/-- What `read_ins_and_outs` undoes: no inputs, no flags and no outputs are told from a marker by the
second zero. -/
def write_ins_and_outs (record : UInt8 × List TxIn × List TxOut) : List UInt8 :=
  if record.1 ≠ 0 then [0, record.1] ++ write_vin record.2.1 ++ write_vout record.2.2
  else if record.2.1 = [] then [0, 0]
  else write_vin record.2.1 ++ write_vout record.2.2

theorem read_ins_and_outs_inverts : Inverts read_ins_and_outs write_ins_and_outs (fun record =>
    (record.2.1.length ≤ MAX_SIZE ∧ ∀ input ∈ record.2.1, input.Encodable ∧ input.witness = [])
      ∧ (record.2.2.length ≤ MAX_SIZE ∧ ∀ output ∈ record.2.2, output.Encodable)
      ∧ (record.1 = 0 → record.2.1 = [] → record.2.2 = [])) where
  read_write := by
    rintro ⟨flags, inputs, outputs⟩ rest ⟨hi, ho, hempty⟩
    have hvin0 (bytes : List UInt8) : read_vin (0 :: bytes) = .ok ([], bytes) :=
      read_vin_inverts.read_write (a := []) bytes ⟨by simp, by simp⟩
    have hu8 (head : UInt8) (bytes : List UInt8) : read_u8 (head :: bytes) = .ok (head, bytes) :=
      read_u8_inverts.read_write (a := head) bytes trivial
    simp only at hi ho hempty
    unfold write_ins_and_outs read_ins_and_outs
    split
    · rename_i hf
      simp only [List.cons_append, List.nil_append, List.append_assoc]
      rw [bind_ok (hvin0 _), if_pos List.isEmpty_nil, bind_ok (hu8 _ _), if_pos hf,
        bind_ok (read_vin_inverts.read_write _ hi),
        bind_ok (read_vout_inverts.read_write _ ho)]
      rfl
    · rename_i hf
      simp only [ne_eq, not_not] at hf
      subst hf
      split
      · rename_i hin
        simp only at hin
        subst hin
        rw [hempty rfl rfl]
        simp only [List.cons_append, List.nil_append]
        rw [bind_ok (hvin0 _), if_pos List.isEmpty_nil, bind_ok (hu8 _ _), if_neg (by simp)]
        rfl
      · rename_i hin
        simp only [List.append_assoc]
        rw [bind_ok (read_vin_inverts.read_write _ hi), if_neg (by simpa using hin),
          bind_ok (read_vout_inverts.read_write _ ho)]
        rfl
  write_read := by
    rintro bytes ⟨flags, inputs, outputs⟩ rest hread
    obtain ⟨vin, b₁, hvin, h⟩ := bind_eq_ok.mp hread
    obtain ⟨hvr, hvin⟩ := read_vin_inverts.write_read hvin
    split at h
    · rename_i he
      rw [List.isEmpty_iff] at he
      subst he
      obtain ⟨flag, b₂, hu, hflag⟩ := bind_eq_ok.mp h
      obtain ⟨-, hu⟩ := read_u8_inverts.write_read hu
      split at hflag
      · rename_i hf
        obtain ⟨ins, b₃, hins, hrest⟩ := bind_eq_ok.mp hflag
        obtain ⟨outs, b₄, houts, hlast⟩ := bind_eq_ok.mp hrest
        cases hlast
        obtain ⟨hi, hins⟩ := read_vin_inverts.write_read hins
        obtain ⟨ho, houts⟩ := read_vout_inverts.write_read houts
        refine ⟨⟨hi, ho, fun h0 => absurd h0 hf⟩, ?_⟩
        rw [← hvin, ← hu, ← hins, ← houts, write_ins_and_outs, if_pos hf]
        simp [write_vin, write_compact_size]
      · rename_i hf
        simp only [ne_eq, not_not] at hf
        subst hf
        cases hflag
        refine ⟨⟨hvr, by simp, by simp⟩, ?_⟩
        rw [← hvin, ← hu, write_ins_and_outs, if_neg (by simp), if_pos rfl]
        rfl
    · rename_i he
      rw [List.isEmpty_iff] at he
      obtain ⟨outs, b₄, houts, hlast⟩ := bind_eq_ok.mp h
      cases hlast
      obtain ⟨ho, houts⟩ := read_vout_inverts.write_read houts
      refine ⟨⟨hvr, ho, fun _ h0 => absurd h0 he⟩, ?_⟩
      rw [← hvin, ← houts, write_ins_and_outs, if_neg (by simp), if_neg he, List.append_assoc]

@[simp] theorem write_vin_bare : write_vin (inputs.map TxIn.bare) = write_vin inputs := by
  rw [write_vin, write_vin, List.length_map, List.flatMap_map]
  rfl

theorem map_bare {inputs : List TxIn} (h : ∀ input ∈ inputs, input.witness = []) : inputs.map TxIn.bare = inputs := by
  calc inputs.map TxIn.bare = inputs.map id := by
        apply List.map_congr_left
        intro input hi
        have hw := h input hi
        cases input
        simp_all [TxIn.bare]
    _ = inputs := List.map_id _

theorem has_witness_eq_false {tx : Transaction} :
    tx.has_witness = false ↔ ∀ input ∈ tx.inputs, input.witness = [] := by
  simp [has_witness]

def write_witnesses (inputs : List TxIn) : List UInt8 := inputs.flatMap fun input => write_witness input.witness

theorem write_with_witness_eq (h : tx.inputs ≠ [] ∨ tx.outputs = []) :
    tx.write_with_witness = le 4 tx.version
      ++ (write_ins_and_outs (if tx.has_witness then 1 else 0, tx.inputs.map TxIn.bare, tx.outputs)
        ++ ((if tx.has_witness then write_witnesses tx.inputs else []) ++ le 4 tx.lock_time)) := by
  unfold write_with_witness write_ins_and_outs
  cases hw : tx.has_witness with
  | true => simp [write_witnesses]
  | false =>
    by_cases hin : tx.inputs = []
    · have hout : tx.outputs = [] := by simpa [hin] using h
      simp [write_without_witness, hin, hout, write_vin, write_vout, write_compact_size]
    · simp [write_without_witness, hin]

theorem read_witness_record_inverts (hb : ∀ input ∈ inputs, input.witness = []) (flags : UInt8) :
    Inverts (read_witness_record flags inputs)
      (fun record => if flags &&& 1 ≠ 0 then write_witnesses record.2 else [])
      (fun record => record.2.map TxIn.bare = inputs
        ∧ (∀ input ∈ record.2, input.witness.length ≤ MAX_SIZE ∧ ∀ item ∈ input.witness, item.length ≤ MAX_SIZE)
        ∧ record.1 = (if flags &&& 1 ≠ 0 then flags ^^^ 1 else flags)
        ∧ (flags &&& 1 ≠ 0 ↔ ∃ input ∈ record.2, input.witness ≠ [])) where
  read_write := by
    rintro ⟨left, filled⟩ rest ⟨hbare, hv, hl, hw⟩
    simp only at hbare hv hl hw
    unfold read_witness_record
    split
    · rename_i hf
      have hany : (filled.any fun input => !input.witness.isEmpty) = true := by simpa using hw.mp hf
      have hread := (read_witnesses_inverts inputs).read_write (a := filled) rest ⟨by rw [map_bare hb, hbare], hv⟩
      rw [write_witnesses, bind_ok hread, if_pos hany, hl, if_pos hf]
      rfl
    · rename_i hf
      have hn : ∀ input ∈ filled, input.witness = [] := by simpa using mt hw.mpr hf
      rw [map_bare hn] at hbare
      rw [hl, if_neg hf, hbare]
      rfl
  write_read := by
    rintro bytes ⟨left, filled⟩ rest h
    unfold read_witness_record at h
    split at h
    · rename_i hf
      obtain ⟨ins, b₁, hins, h⟩ := bind_eq_ok.mp h
      obtain ⟨⟨hbare, hv⟩, hwrite⟩ := (read_witnesses_inverts inputs).write_read hins
      split at h
      · rename_i hany
        cases h
        rw [map_bare hb] at hbare
        exact ⟨⟨hbare, hv, by rw [if_pos hf], by simpa [hf] using hany⟩, by rw [if_pos hf]; exact hwrite⟩
      · cases h
    · rename_i hf
      cases h
      refine ⟨⟨map_bare hb, ?_, by rw [if_neg hf], ?_⟩, by rw [if_neg hf]; rfl⟩
      · intro input hi
        simp [hb input hi]
      · simp only [hf, false_iff, not_exists, not_and, not_not]
        exact hb

theorem read_inverts : Inverts read write_with_witness
    (fun tx => tx.Encodable ∧ (tx.inputs ≠ [] ∨ tx.outputs = [])) where
  read_write := by
    rintro tx rest ⟨henc, hshape⟩
    have hbare : ∀ input ∈ tx.inputs.map TxIn.bare, input.Encodable ∧ input.witness = [] := by
      intro input hi
      obtain ⟨original, ho, rfl⟩ := List.mem_map.mp hi
      exact ⟨(henc.inputs.2 original ho).bare, rfl⟩
    have hbody := read_ins_and_outs_inverts.read_write
      (a := (if tx.has_witness then 1 else 0, tx.inputs.map TxIn.bare, tx.outputs))
    have hrecord := (read_witness_record_inverts (tx.inputs.map TxIn.bare) (fun input hi => (hbare input hi).2)
      (if tx.has_witness then 1 else 0)).read_write (a := (0, tx.inputs))
    have hlock := read_u32_le_inverts.read_write rest henc.lock_time
    rw [write_with_witness_eq tx hshape]
    simp only [List.append_assoc]
    rw [read, bind_ok (read_u32_le_inverts.read_write _ henc.version), bind_ok (hbody _ ?_)]
    · have hfill := hrecord (le 4 tx.lock_time ++ rest) ?_
      · cases hw : tx.has_witness with
        | true =>
          simp only [hw, if_true] at hfill ⊢
          rw [if_pos (by decide)] at hfill
          rw [bind_ok hfill]
          simp only [ne_eq, not_true_eq_false, if_false]
          rw [bind_ok hlock]
          rfl
        | false =>
          simp only [hw, Bool.false_eq_true, if_false] at hfill ⊢
          rw [if_neg (by decide)] at hfill
          rw [bind_ok hfill]
          simp only [ne_eq, not_true_eq_false, if_false]
          rw [bind_ok hlock]
          rfl
      · refine ⟨rfl, fun input hi => (henc.inputs.2 input hi).2.2.2, ?_⟩
        cases hw : tx.has_witness with
        | true =>
          have hsome : ∃ input ∈ tx.inputs, input.witness ≠ [] := by simpa [has_witness] using hw
          simpa using hsome
        | false =>
          have hnone := has_witness_eq_false.mp hw
          simpa using hnone
    · refine ⟨⟨by simpa using henc.inputs.1, hbare⟩, henc.outputs, ?_⟩
      intro _ hin
      rcases hshape with hne | hout
      · exact absurd (List.map_eq_nil_iff.mp hin) hne
      · exact hout
  write_read := by
    intro bytes tx rest hread
    obtain ⟨version, b₁, hv, h⟩ := bind_eq_ok.mp hread
    obtain ⟨⟨flags, ins, outs⟩, b₂, hbody, h⟩ := bind_eq_ok.mp h
    obtain ⟨⟨left, filled⟩, b₃, hrecord, h⟩ := bind_eq_ok.mp h
    simp only at hrecord h
    split at h
    · cases h
    rename_i hleft
    obtain ⟨lock_time, b₄, hlock, h⟩ := bind_eq_ok.mp h
    cases h
    obtain ⟨hvr, hv⟩ := read_u32_le_inverts.write_read hv
    obtain ⟨⟨hins, houts, hempty⟩, hbody⟩ := read_ins_and_outs_inverts.write_read hbody
    obtain ⟨⟨hbare, hitems, hflags, hsome⟩, hrecord⟩ :=
      (read_witness_record_inverts ins (fun input hi => (hins.2 input hi).2) flags).write_read hrecord
    obtain ⟨hlr, hlock⟩ := read_u32_le_inverts.write_read hlock
    simp only [ne_eq, not_not] at hleft hbare hitems hflags hsome hins houts hempty
    subst hleft
    have hw : (⟨version, filled, outs, lock_time⟩ : Transaction).has_witness = true ↔ flags &&& 1 ≠ 0 := by
      rw [ne_eq, hsome]
      simp [has_witness]
    have hflag : flags = if (⟨version, filled, outs, lock_time⟩ : Transaction).has_witness then 1 else 0 := by
      by_cases hf : flags &&& 1 = 0
      · rw [if_neg (by simpa using hf)] at hflags
        rw [if_neg (fun h => hw.mp h hf), ← hflags]
      · rw [if_pos hf] at hflags
        rw [if_pos (hw.mpr hf), ← UInt8.xor_eq_zero_iff, ← hflags]
    have hshape : filled ≠ [] ∨ outs = [] := by
      rw [or_iff_not_imp_left, not_not]
      rintro rfl
      apply hempty
      · rw [hflag]
        rfl
      · rw [← hbare]
        rfl
    refine ⟨⟨⟨hvr, ?_, houts, hlr⟩, hshape⟩, ?_⟩
    · refine ⟨by simpa [← hbare] using hins.1, ?_⟩
      intro input hi
      have hb := (hins.2 input.bare (hbare ▸ List.mem_map_of_mem hi)).1
      exact ⟨hb.1, hb.2.1, hb.2.2.1, hitems input hi⟩
    · rw [write_with_witness_eq _ hshape, ← hflag, hbare, ← hv, ← hbody, ← hrecord, ← hlock]
      simp only [List.append_assoc]
      by_cases hf : flags &&& 1 = 0
      · rw [if_neg (fun h => hw.mp h hf), if_neg (by simpa using hf)]
      · rw [if_pos (hw.mpr hf), if_pos hf]

@[simp] theorem length_write_compact_size (n : ℕ) : (write_compact_size n).length = compact_size_len n := by
  unfold write_compact_size compact_size_len
  split
  · rfl
  · split
    · simp
    · split <;> simp

@[simp] theorem length_write_var_bytes (bytes : List UInt8) :
    (write_var_bytes bytes).length = compact_size_len bytes.length + bytes.length := by
  simp [write_var_bytes]

theorem length_write_without_witness :
    tx.write_without_witness.length = tx.size_without_witness := by
  have hin : ∀ input : TxIn, (write_txin_no_witness input).length
      = 32 + 4 + compact_size_len input.script_sig.length + input.script_sig.length + 4 := by
    intro input
    simp [write_txin_no_witness, write_var_bytes]
    omega
  have hout : ∀ output : TxOut, (write_txout output).length
      = 8 + compact_size_len output.script_pubkey.length + output.script_pubkey.length := by
    intro output
    simp [write_txout, write_i64, write_var_bytes]
    omega
  simp only [write_without_witness, write_vin, write_vout, size_without_witness, List.length_append, length_le,
    length_write_compact_size, List.length_flatMap, hin, hout]
  omega

theorem length_encode : tx.encode.length = tx.size_with_witness := by
  unfold encode write_with_witness size_with_witness
  split
  · have hw : ∀ input : TxIn, (write_witness input.witness).length = compact_size_len input.witness.length
        + (input.witness.map fun item => compact_size_len item.length + item.length).sum := by
      intro input
      simp [write_witness, List.length_flatMap]
    rw [← length_write_without_witness]
    simp only [write_without_witness, List.length_append, length_le, List.length_flatMap, hw, List.length_singleton]
    omega
  · exact length_write_without_witness tx

theorem decode_eq_ok {bytes : List UInt8} {tx : Transaction} : decode bytes = .ok tx ↔ read bytes = .ok (tx, []) := by
  unfold decode
  split <;> simp_all

theorem codec_exact :
    (∀ (bytes : List UInt8) (tx : Transaction), decode bytes = .ok tx → tx.encode = bytes)
      ∧ ∀ tx : Transaction, tx.Encodable → (tx.inputs ≠ [] ∨ (tx.inputs = [] ∧ tx.outputs = [])) →
        decode tx.encode = .ok tx ∧ tx.encode.length = tx.size_with_witness
          ∧ tx.write_without_witness.length = tx.size_without_witness := by
  constructor
  · intro bytes tx h
    obtain ⟨-, hw⟩ := read_inverts.write_read (decode_eq_ok.mp h)
    rwa [List.append_nil] at hw
  · intro tx henc hshape
    have hread := read_inverts.read_write (a := tx) [] ⟨henc, by tauto⟩
    rw [List.append_nil] at hread
    exact ⟨decode_eq_ok.mpr hread, length_encode tx, length_write_without_witness tx⟩

def sample_witness_tx : Transaction :=
  ⟨2, [⟨⟨7, 1⟩, [0x51], 0xfffffffe, []⟩, ⟨⟨8, 0⟩, [], 0xffffffff, [[0xde, 0xad], []]⟩], [⟨5000, [0x6a]⟩], 500⟩

theorem codec_exact_sample : decode sample_witness_tx.encode = .ok sample_witness_tx ∧
    sample_witness_tx.encode.length = sample_witness_tx.size_with_witness ∧
      sample_witness_tx.write_without_witness.length = sample_witness_tx.size_without_witness := by
  apply codec_exact.2
  · constructor
    · decide
    · simp [sample_witness_tx, MAX_SIZE, TxIn.Encodable]
    · simp [sample_witness_tx, MAX_SIZE, TxOut.Encodable, i64_fits, I64_MIN, I64_MAX]
    · decide
  · simp [sample_witness_tx]

end Transaction

end AvilaNode
