import AvilaNode.Sighash

/-! Signature checkers, and the scripts of a transaction's inputs. -/

namespace AvilaNode.Interpreter

open ByteStrings Digests OraclePrograms Transaction

def of_be_bytes (bytes : List UInt8) : BitVec 256 := BitVec.ofNat 256 (value bytes.reverse)

def compress (pubkey : List UInt8) : List UInt8 :=
  (if pubkey.getD 64 0 &&& 1 = 1 then 0x03 else 0x02) :: (pubkey.drop 1).take 32

/-- What `libsecp256k1` gives, through either of its two bindings: signatures in compact form are their two
scalars, and a key's compressed form is a form of the same key. -/
class Secp256k1 where
  PublicKey : Type
  Signature : Type
  from_byte_array_compressed : List UInt8 → Option PublicKey
  from_byte_array_uncompressed : List UInt8 → Option PublicKey
  from_der_lax : List UInt8 → Option Signature
  from_compact : BitVec 256 × BitVec 256 → Option Signature
  serialize_compact : Signature → BitVec 256 × BitVec 256
  normalize_s : Signature → Signature
  verify : Signature → BitVec 256 → PublicKey → Bool
  verify_schnorr : List UInt8 → List UInt8 → List UInt8 → Bool
  add_tweak : List UInt8 → List UInt8 → Option (List UInt8 × Bool)
  compressed_of_uncompressed : ∀ {pubkey key}, pubkey.length = 65 →
    from_byte_array_uncompressed pubkey = some key → from_byte_array_compressed (compress pubkey) = some key
  serialize_normalize : ∀ s, (serialize_compact (normalize_s s)).1 = (serialize_compact s).1
  from_compact_serialize : ∀ s, from_compact (serialize_compact s) = some s

open Secp256k1

section
variable [Secp256k1]

def parse_public_key (bytes : List UInt8) : Option PublicKey :=
  if bytes.length = 33 then from_byte_array_compressed bytes
  else if bytes.length = 65 then from_byte_array_uncompressed bytes
  else none

def verify_ecdsa_signature (sig pubkey : List UInt8) (sighash : BitVec 256) : Bool :=
  match parse_public_key pubkey with
  | none => false
  | some pk =>
    match from_der_lax sig with
    | none => false
    | some signature => verify (normalize_s signature) sighash pk

def verify_ecdsa_compact (pubkey : List UInt8) (signature : BitVec 256 × BitVec 256) (digest : BitVec 256) : Bool :=
  match parse_public_key pubkey with
  | none => false
  | some pk =>
    match from_compact signature with
    | none => false
    | some signature => verify signature digest pk

end

def TAPBRANCH : List UInt8 := [0x54, 0x61, 0x70, 0x42, 0x72, 0x61, 0x6e, 0x63, 0x68]

def TAPTWEAK : List UInt8 := [0x54, 0x61, 0x70, 0x54, 0x77, 0x65, 0x61, 0x6b]

section
variable [Digests]

def compute_tapbranch_hash (a b : List UInt8) : List UInt8 :=
  tagged_hash TAPBRANCH (if a ≤ b then a ++ b else b ++ a)

def fold_path : ℕ → List UInt8 → List UInt8 → List UInt8
  | 0, _, k => k
  | fuel + 1, path, k =>
    if path.length < TAPROOT_CONTROL_NODE_SIZE then k
    else fold_path fuel (path.drop TAPROOT_CONTROL_NODE_SIZE)
      (compute_tapbranch_hash k (path.take TAPROOT_CONTROL_NODE_SIZE))

def compute_taproot_merkle_root (control tapleaf_hash : List UInt8) : List UInt8 :=
  fold_path control.length (control.drop TAPROOT_CONTROL_BASE_SIZE) tapleaf_hash

structure TransactionSignatureChecker where
  tx : Transaction
  n_in : ℕ
  amount : ℤ
  txdata : PrecomputedTransactionData

namespace TransactionSignatureChecker

variable [Secp256k1]

def sighash (checker : TransactionSignatureChecker) (hash_type : UInt8) (script_code : List UInt8)
    (sigversion : SigVersion) : BitVec 256 :=
  of_be_bytes (signature_hash script_code checker.tx checker.n_in (BitVec.ofNat 32 hash_type.toNat) checker.amount
    sigversion (some checker.txdata))

def passes_gates (checker : TransactionSignatureChecker) (sig pubkey : List UInt8) (sigversion : SigVersion) : Bool :=
  !pubkey.isEmpty && !sig.isEmpty && !(sigversion == .WitnessV0 && decide (checker.amount < 0))

def check_ecdsa_signature (checker : TransactionSignatureChecker) (sig pubkey script_code : List UInt8)
    (sigversion : SigVersion) : Bool :=
  checker.passes_gates sig pubkey sigversion &&
    verify_ecdsa_signature sig.dropLast pubkey (checker.sighash (sig.getLastD 0) script_code sigversion)

def verify_schnorr_signature (sig pubkey sighash : List UInt8) : Bool :=
  pubkey.length == 32 && sig.length == 64 && verify_schnorr sig sighash pubkey

def check_schnorr_signature (checker : TransactionSignatureChecker) (sig pubkey : List UInt8)
    (sigversion : SigVersion) (execdata : ExecutionData) : Except ScriptError Unit × ExecutionData :=
  if sig.length ≠ 64 ∧ sig.length ≠ 65 then (.error .SchnorrSigSize, execdata)
  else if sig.length = 65 ∧ sig.getLastD 0 = SIGHASH_DEFAULT then (.error .SchnorrSigHashType, execdata)
  else
    let hash_type := if sig.length = 65 then sig.getLastD 0 else SIGHASH_DEFAULT
    match signature_hash_schnorr checker.tx checker.n_in hash_type sigversion checker.txdata execdata with
    | (none, execdata) => (.error .SchnorrSigHashType, execdata)
    | (some sighash, execdata) =>
      (if verify_schnorr_signature (sig.take 64) pubkey sighash then .ok () else .error .SchnorrSig, execdata)

def sequence (checker : TransactionSignatureChecker) : ℕ :=
    (checker.tx.inputs[checker.n_in]?.map TxIn.sequence).getD 0

def check_locktime (checker : TransactionSignatureChecker) (locktime : ℤ) : Bool :=
  let tx_locktime : ℤ := checker.tx.lock_time
  if ¬(tx_locktime < LOCKTIME_THRESHOLD ∧ locktime < LOCKTIME_THRESHOLD ∨
      (LOCKTIME_THRESHOLD : ℤ) ≤ tx_locktime ∧ (LOCKTIME_THRESHOLD : ℤ) ≤ locktime) then false
  else if tx_locktime < locktime then false
  else if checker.sequence = SEQUENCE_FINAL then false
  else true

def sequence_masked (sequence : ℤ) : ℕ :=
  (BitVec.ofInt 64 sequence).toNat &&& (SEQUENCE_LOCKTIME_TYPE_FLAG ||| SEQUENCE_LOCKTIME_MASK)

def check_sequence (checker : TransactionSignatureChecker) (sequence : ℤ) : Bool :=
  let tx_sequence_masked := sequence_masked checker.sequence
  let sequence_masked := sequence_masked sequence
  if checker.tx.version < SEQUENCE_LOCKS_MIN_VERSION then false
  else if checker.sequence &&& SEQUENCE_LOCKTIME_DISABLE_FLAG ≠ 0 then false
  else if ¬(tx_sequence_masked < SEQUENCE_LOCKTIME_TYPE_FLAG ∧ sequence_masked < SEQUENCE_LOCKTIME_TYPE_FLAG ∨
      SEQUENCE_LOCKTIME_TYPE_FLAG ≤ tx_sequence_masked ∧ SEQUENCE_LOCKTIME_TYPE_FLAG ≤ sequence_masked) then false
  else if tx_sequence_masked < sequence_masked then false
  else true

def verify_taproot_commitment (control program tapleaf_hash : List UInt8) : Bool :=
  let internal := (control.drop 1).take 32
  match add_tweak internal (tagged_hash TAPTWEAK (internal ++ compute_taproot_merkle_root control tapleaf_hash)) with
  | none => false
  | some (xonly, odd) => (odd == (control.getD 0 0 &&& 1 == 1)) && xonly == program

def answer (checker : TransactionSignatureChecker) : (q : Query) → Answer q
  | .check_ecdsa_signature sig pubkey script_code sigversion =>
    checker.check_ecdsa_signature sig pubkey script_code sigversion
  | .check_schnorr_signature sig pubkey sigversion execdata =>
    checker.check_schnorr_signature sig pubkey sigversion execdata
  | .check_locktime locktime => checker.check_locktime locktime
  | .check_sequence sequence => checker.check_sequence sequence
  | .verify_taproot_commitment control program tapleaf_hash => verify_taproot_commitment control program tapleaf_hash

end TransactionSignatureChecker

abbrev Checking (σ : Type) : Type := TransactionSignatureChecker → (q : Query) → σ → Answer q × σ

variable [Secp256k1] {σ : Type}

def verify_inputs (checking : Checking σ) (tx : Transaction) (spent_outputs : List TxOut)
    (txdata : PrecomputedTransactionData) (flags : ScriptFlags) : ℕ → List TxIn → σ → Except Halt Unit × σ
  | _, [], s => (.ok (), s)
  | i, input :: inputs, s =>
    match spent_outputs[i]? with
    | none => (.error .panic, s)
    | some out =>
      let checker : TransactionSignatureChecker := ⟨tx, i, out.value, txdata⟩
      match (verify_script input.script_sig out.script_pubkey input.witness.reverse flags ()).run_state
          (checking checker) s with
      | (.ok _, s) => verify_inputs checking tx spent_outputs txdata flags (i + 1) inputs s
      | (.error e, s) => (.error e, s)

def check_scripts_with (checking : Checking σ) (tx : Transaction) (spent_outputs : List TxOut) (flags : ScriptFlags)
    (s : σ) : Except Halt Unit × σ :=
  if tx.is_coinbase then (.ok (), s)
  else verify_inputs checking tx spent_outputs (.new tx (some spent_outputs) false) flags 0 tx.inputs s

def check_input_scripts (tx : Transaction) (spent_outputs : List TxOut) (flags : ScriptFlags) : Except Halt Unit :=
  (check_scripts_with (fun checker q (s : Unit) => (checker.answer q, s)) tx spent_outputs flags ()).1

end

end AvilaNode.Interpreter
