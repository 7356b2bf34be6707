import AvilaNode.Interpreter

/-! The digests that signatures commit to. -/

namespace AvilaNode.Interpreter

open ByteStrings Digests Transaction

def SIGHASH_DEFAULT : UInt8 := 0
def SIGHASH_ALL : UInt8 := 1
def SIGHASH_NONE : UInt8 := 2
def SIGHASH_SINGLE : UInt8 := 3
def SIGHASH_ANYONECANPAY : UInt8 := 0x80
def SIGHASH_OUTPUT_MASK : UInt8 := 3
def SIGHASH_INPUT_MASK : UInt8 := 0x80

abbrev HashType := BitVec 32

namespace HashType

def anyone_can_pay (hash_type : HashType) : Bool := hash_type &&& 0x80#32 != 0

def is_single (hash_type : HashType) : Bool := hash_type &&& 0x1f#32 == 3

def is_none (hash_type : HashType) : Bool := hash_type &&& 0x1f#32 == 2

end HashType

def zero_hash : List UInt8 := List.replicate 32 0

section
variable [Digests]

def sha256d (bytes : List UInt8) : List UInt8 := sha256 (sha256 bytes)

def tagged_hash (tag bytes : List UInt8) : List UInt8 :=
  let tag_hash := sha256 tag
  sha256 (tag_hash ++ tag_hash ++ bytes)

structure PrecomputedTransactionData where
  spent_outputs : List TxOut
  spent_outputs_ready : Bool
  bip143_segwit_ready : Bool
  bip341_taproot_ready : Bool
  prevouts_single_hash : List UInt8
  sequences_single_hash : List UInt8
  outputs_single_hash : List UInt8
  spent_amounts_single_hash : List UInt8
  spent_scripts_single_hash : List UInt8
  hash_prevouts : List UInt8
  hash_sequence : List UInt8
  hash_outputs : List UInt8
deriving DecidableEq, Repr

def prevouts_single_hash (tx : Transaction) : List UInt8 :=
  sha256 (tx.inputs.flatMap fun input => input.previous_output.txid.to_bytes ++ le 4 input.previous_output.vout)

def sequences_single_hash (tx : Transaction) : List UInt8 :=
  sha256 (tx.inputs.flatMap fun input => le 4 input.sequence)

def outputs_single_hash (tx : Transaction) : List UInt8 := sha256 (tx.outputs.flatMap write_txout)

def spent_amounts_single_hash (spent : List TxOut) : List UInt8 :=
  sha256 (spent.flatMap fun txout => write_i64 txout.value)

def spent_scripts_single_hash (spent : List TxOut) : List UInt8 :=
  sha256 (spent.flatMap fun txout => write_var_bytes txout.script_pubkey)

namespace PrecomputedTransactionData

def default : PrecomputedTransactionData :=
  ⟨[], false, false, false, zero_hash, zero_hash, zero_hash, zero_hash, zero_hash, zero_hash, zero_hash, zero_hash⟩

def is_taproot_spk (txout : TxOut) : Bool :=
  txout.script_pubkey.length == 2 + 32 && txout.script_pubkey.head? == some OP_1

/-- The scan over the inputs for what they use, BIP143 first; it ends where both are used. `spent` is what the
inputs spend, and empty where that is not ready. -/
def uses (spent : List TxOut) : ℕ → List TxIn → Bool × Bool → Bool × Bool
  | _, [], used => used
  | inpos, input :: inputs, used =>
    if used.1 && used.2 then used
    else if input.witness.isEmpty then uses spent (inpos + 1) inputs used
    else if spent[inpos]?.any is_taproot_spk then uses spent (inpos + 1) inputs (used.1, true)
    else uses spent (inpos + 1) inputs (true, used.2)

def with_spent (spent_outputs : Option (List TxOut)) : PrecomputedTransactionData :=
  { default with spent_outputs := spent_outputs.getD [], spent_outputs_ready := !(spent_outputs.getD []).isEmpty }

def fill_shared (tx : Transaction) (data : PrecomputedTransactionData) : PrecomputedTransactionData :=
  { data with
    prevouts_single_hash := Interpreter.prevouts_single_hash tx
    sequences_single_hash := Interpreter.sequences_single_hash tx
    outputs_single_hash := Interpreter.outputs_single_hash tx }

def fill_bip143 (data : PrecomputedTransactionData) : PrecomputedTransactionData :=
  { data with
    hash_prevouts := sha256 data.prevouts_single_hash
    hash_sequence := sha256 data.sequences_single_hash
    hash_outputs := sha256 data.outputs_single_hash
    bip143_segwit_ready := true }

def fill_bip341 (data : PrecomputedTransactionData) : PrecomputedTransactionData :=
  { data with
    spent_amounts_single_hash := Interpreter.spent_amounts_single_hash data.spent_outputs
    spent_scripts_single_hash := Interpreter.spent_scripts_single_hash data.spent_outputs
    bip341_taproot_ready := true }

def new (tx : Transaction) (spent_outputs : Option (List TxOut)) (force : Bool) : PrecomputedTransactionData :=
  let this := with_spent spent_outputs
  let used := uses this.spent_outputs 0 tx.inputs (force, force)
  let this := if used.1 || used.2 then fill_shared tx this else this
  let this := if used.1 then fill_bip143 this else this
  if used.2 && this.spent_outputs_ready then fill_bip341 this else this

end PrecomputedTransactionData

def count_separators (script_code : Script) : ℕ → ℕ → ℕ
  | 0, _ => 0
  | fuel + 1, pc =>
    match get_op script_code pc with
    | (none, _) => 0
    | (some (opcode, _), pc) =>
      (if opcode = OP_CODESEPARATOR then 1 else 0) + count_separators script_code fuel pc

/-- The bytes from `seg_start` on without the separators, up to where the walk from `pc` fails. -/
def script_segments (script_code : Script) : ℕ → ℕ → ℕ → List UInt8
  | 0, _, _ => []
  | fuel + 1, pc, seg_start =>
    match get_op script_code pc with
    | (none, pc) =>
      if seg_start ≠ script_code.length then (script_code.drop seg_start).take (pc - seg_start) else []
    | (some (opcode, _), pc) =>
      if opcode = OP_CODESEPARATOR then
        (script_code.drop seg_start).take (pc - 1 - seg_start) ++ script_segments script_code fuel pc pc
      else script_segments script_code fuel pc seg_start

def write_script_code (script_code : Script) : List UInt8 :=
  let fuel := script_code.length + 1
  write_compact_size (script_code.length - count_separators script_code fuel 0) ++
    script_segments script_code fuel 0 0

def write_signed_input (tx : Transaction) (script_code : Script) (n_in : ℕ) (hash_type : HashType) (idx : ℕ) :
    List UInt8 :=
  match tx.inputs[idx]? with
  | none => []
  | some input =>
    input.previous_output.txid.to_bytes ++ le 4 input.previous_output.vout ++
      (if idx ≠ n_in then write_compact_size 0 else write_script_code script_code) ++
      (if idx ≠ n_in ∧ (hash_type.is_single || hash_type.is_none) then le 4 0 else le 4 input.sequence)

def write_signed_output (tx : Transaction) (n_in : ℕ) (hash_type : HashType) (n_output : ℕ) : List UInt8 :=
  if hash_type.is_single ∧ n_output ≠ n_in then write_i64 (-1) ++ write_compact_size 0
  else
    match tx.outputs[n_output]? with
    | none => []
    | some output => write_txout output

def write_legacy_sighash_preimage (tx : Transaction) (script_code : Script) (n_in : ℕ) (hash_type : HashType) :
    List UInt8 :=
  let signed := if hash_type.anyone_can_pay then [n_in] else List.range tx.inputs.length
  let n_outputs :=
    if hash_type.is_none then 0
    else if hash_type.is_single then n_in + 1
    else tx.outputs.length
  le 4 tx.version ++ write_compact_size signed.length ++
    signed.flatMap (write_signed_input tx script_code n_in hash_type) ++
    write_compact_size n_outputs ++ (List.range n_outputs).flatMap (write_signed_output tx n_in hash_type) ++
    le 4 tx.lock_time

def hash_prevouts (tx : Transaction) (cache : Option PrecomputedTransactionData) (hash_type : HashType) :
    List UInt8 :=
  if hash_type.anyone_can_pay then zero_hash
  else
    match cache with
    | some c => c.hash_prevouts
    | none => sha256 (prevouts_single_hash tx)

def hash_sequence (tx : Transaction) (cache : Option PrecomputedTransactionData) (hash_type : HashType) :
    List UInt8 :=
  if hash_type.anyone_can_pay || hash_type.is_single || hash_type.is_none then zero_hash
  else
    match cache with
    | some c => c.hash_sequence
    | none => sha256 (sequences_single_hash tx)

def hash_outputs (tx : Transaction) (n_in : ℕ) (cache : Option PrecomputedTransactionData) (hash_type : HashType) :
    List UInt8 :=
  if !hash_type.is_single && !hash_type.is_none then
    match cache with
    | some c => c.hash_outputs
    | none => sha256 (outputs_single_hash tx)
  else
    match if hash_type.is_single then tx.outputs[n_in]? else none with
    | some output => sha256d (write_txout output)
    | none => zero_hash

def bip143_hash (script_code : Script) (tx : Transaction) (n_in : ℕ) (hash_type : HashType) (amount : ℤ)
    (cache : Option PrecomputedTransactionData) : List UInt8 :=
  match tx.inputs[n_in]? with
  | none => []
  | some input =>
    sha256d (le 4 tx.version ++ hash_prevouts tx cache hash_type ++ hash_sequence tx cache hash_type ++
      input.previous_output.txid.to_bytes ++ le 4 input.previous_output.vout ++ write_var_bytes script_code ++
      write_i64 amount ++ le 4 input.sequence ++ hash_outputs tx n_in cache hash_type ++ le 4 tx.lock_time ++
      le 4 hash_type.toNat)

/-- `uint256::ONE` is the digest of a `SIGHASH_SINGLE` past the last output. The callers give an index of an
input. -/
def signature_hash (script_code : Script) (tx : Transaction) (n_in : ℕ) (hash_type : HashType) (amount : ℤ)
    (sigversion : SigVersion) (cache : Option PrecomputedTransactionData) : List UInt8 :=
  if sigversion = .WitnessV0 then
    bip143_hash script_code tx n_in hash_type amount (cache.filter fun c => c.bip143_segwit_ready)
  else if hash_type.is_single ∧ tx.outputs.length ≤ n_in then 1 :: List.replicate 31 0
  else sha256d (write_legacy_sighash_preimage tx script_code n_in hash_type ++ le 4 hash_type.toNat)

def TAPSIGHASH : List UInt8 := [0x54, 0x61, 0x70, 0x53, 0x69, 0x67, 0x68, 0x61, 0x73, 0x68]

def schnorr_transaction_data (tx : Transaction) (hash_type : UInt8) (cache : PrecomputedTransactionData) :
    List UInt8 :=
  let output_type := if hash_type = SIGHASH_DEFAULT then SIGHASH_ALL else hash_type &&& SIGHASH_OUTPUT_MASK
  let input_type := hash_type &&& SIGHASH_INPUT_MASK
  le 4 tx.version ++ le 4 tx.lock_time ++
    (if input_type ≠ SIGHASH_ANYONECANPAY then
      cache.prevouts_single_hash ++ cache.spent_amounts_single_hash ++ cache.spent_scripts_single_hash ++
        cache.sequences_single_hash
    else []) ++
    (if output_type = SIGHASH_ALL then cache.outputs_single_hash else [])

def schnorr_input_data (tx : Transaction) (n_in : ℕ) (hash_type : UInt8) (cache : PrecomputedTransactionData) :
    List UInt8 :=
  if hash_type &&& SIGHASH_INPUT_MASK = SIGHASH_ANYONECANPAY then
    match tx.inputs[n_in]?, cache.spent_outputs[n_in]? with
    | some input, some spent =>
      input.previous_output.txid.to_bytes ++ le 4 input.previous_output.vout ++ write_txout spent ++
        le 4 input.sequence
    | _, _ => []
  else le 4 n_in

def schnorr_annex (execdata : ExecutionData) : Option (List UInt8) :=
  if execdata.annex_present then execdata.annex_hash else some []

def schnorr_output (tx : Transaction) (n_in : ℕ) (hash_type : UInt8) (execdata : ExecutionData) :
    Option (List UInt8 × ExecutionData) :=
  let output_type := if hash_type = SIGHASH_DEFAULT then SIGHASH_ALL else hash_type &&& SIGHASH_OUTPUT_MASK
  if output_type = SIGHASH_SINGLE then
    tx.outputs[n_in]?.map fun output =>
      let output_hash := execdata.output_hash.getD (sha256 (write_txout output))
      (output_hash, { execdata with output_hash := some output_hash })
  else some ([], execdata)

def schnorr_leaf (sigversion : SigVersion) (execdata : ExecutionData) : Option (List UInt8) :=
  if sigversion = .Tapscript then
    execdata.tapleaf_hash.map fun leaf => leaf ++ [0] ++ le 4 execdata.codeseparator_pos
  else some []

/-- Asked of the two taproot versions only; the other two panic. -/
def signature_hash_schnorr (tx : Transaction) (n_in : ℕ) (hash_type : UInt8) (sigversion : SigVersion)
    (cache : PrecomputedTransactionData) (execdata : ExecutionData) : Option (List UInt8) × ExecutionData :=
  let ext_flag : UInt8 := if sigversion = .Tapscript then 1 else 0
  if !(cache.bip341_taproot_ready && cache.spent_outputs_ready) then (none, execdata)
  else if ¬(hash_type ≤ 0x03 ∨ 0x81 ≤ hash_type ∧ hash_type ≤ 0x83) then (none, execdata)
  else
    let spend_type := ext_flag <<< 1 ||| if execdata.annex_present then 1 else 0
    match schnorr_annex execdata with
    | none => (none, execdata)
    | some annex =>
      match schnorr_output tx n_in hash_type execdata with
      | none => (none, execdata)
      | some (output, execdata) =>
        match schnorr_leaf sigversion execdata with
        | none => (none, execdata)
        | some leaf =>
          (some (tagged_hash TAPSIGHASH
            ([0, hash_type] ++ schnorr_transaction_data tx hash_type cache ++ [spend_type] ++
            schnorr_input_data tx n_in hash_type cache ++ annex ++ output ++ leaf)), execdata)

end

end AvilaNode.Interpreter
