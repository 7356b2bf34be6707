import AvilaNode.TapTree
import Mathlib.Data.List.Lex
import Mathlib.Data.Prod.Lex

/-! Partially signed transactions: maps of key-value pairs, what each pair must hold, and their order on the wire. -/

namespace AvilaNode.Psbt

open ByteReader Decoder

def PSBT_MAGIC : List UInt8 := [0x70, 0x73, 0x62, 0x74, 0xff]

inductive Scope where
  | Global
  | Input
  | Output
deriving DecidableEq, Repr

def refuse (message : String) : Except Halt Unit := .error (.Refused (.Core message))

def lift {α : Type} (r : Except DecodeError α) : Except Halt α := r.mapError fun e => .Refused (map_decode_err e)

def proprietary_keydata : Decoder ℕ := do
  let id_len ← read_compact_size
  let _ ← read_bytes id_len
  read_compact_size

def sized (len : ℕ) (kd : List UInt8) (message : String) : Except Halt Unit :=
  if kd.length = len then .ok () else refuse message

def pubkey_keyed (pubkey_is_valid : List UInt8 → Bool) (kd : List UInt8) (message : String) : Except Halt Unit :=
  if kd.length ≠ 33 ∧ kd.length ≠ 65 then refuse message
  else if pubkey_is_valid kd then .ok () else refuse "Invalid pubkey"

def check_key (pubkey_is_valid : List UInt8 → Bool) (scope : Scope) (key_type : UInt8) (kd : List UInt8) :
    Except Halt Unit :=
  match scope, key_type.toNat with
  | .Global, 0x00 => sized 0 kd "Global unsigned tx key is more than one byte type"
  | .Global, 0x01 =>
    if kd.length ≠ 78 then refuse "Size of key was not the expected size for the type global xpub"
    else if pubkey_is_valid (kd.drop 45) then .ok () else refuse "Invalid pubkey"
  | .Global, 0xfb => sized 0 kd "Global version key is more than one byte type"
  | .Input, 0x00 => sized 0 kd "Non-witness utxo key is more than one byte type"
  | .Input, 0x01 => sized 0 kd "Witness utxo key is more than one byte type"
  | .Input, 0x02 =>
    pubkey_keyed pubkey_is_valid kd "Size of key was not the expected size for the type partial signature pubkey"
  | .Input, 0x03 => sized 0 kd "Sighash type key is more than one byte type"
  | .Input, 0x04 => sized 0 kd "Input redeemScript key is more than one byte type"
  | .Input, 0x05 => sized 0 kd "Input witnessScript key is more than one byte type"
  | .Input, 0x06 | .Output, 0x02 =>
    pubkey_keyed pubkey_is_valid kd "Size of key was not the expected size for the type BIP32 keypath"
  | .Input, 0x07 => sized 0 kd "Final scriptSig key is more than one byte type"
  | .Input, 0x08 => sized 0 kd "Final scriptWitness key is more than one byte type"
  | .Input, 0x0a => sized 20 kd "Size of key was not the expected size for the type ripemd160 preimage"
  | .Input, 0x0b => sized 32 kd "Size of key was not the expected size for the type sha256 preimage"
  | .Input, 0x0c => sized 20 kd "Size of key was not the expected size for the type hash160 preimage"
  | .Input, 0x0d => sized 32 kd "Size of key was not the expected size for the type hash256 preimage"
  | .Input, 0x13 => sized 0 kd "Input Taproot key signature key is more than one byte type"
  | .Input, 0x14 => sized 64 kd "Input Taproot script signature key is not 65 bytes"
  | .Input, 0x15 =>
    if kd.length < 33 then refuse "Taproot leaf script key is not at least 34 bytes"
    else if (kd.length - 1) % 32 ≠ 0 then refuse "Input Taproot leaf script key's control block size is not valid"
    else .ok ()
  | .Input, 0x16 => sized 32 kd "Input Taproot BIP32 keypath key is not at 33 bytes"
  | .Input, 0x17 => sized 0 kd "Input Taproot internal key key is more than one byte type"
  | .Input, 0x18 => sized 0 kd "Input Taproot merkle root key is more than one byte type"
  | .Output, 0x00 => sized 0 kd "Output redeemScript key is more than one byte type"
  | .Output, 0x01 => sized 0 kd "Output witnessScript key is more than one byte type"
  | .Output, 0x05 => sized 0 kd "Output Taproot internal key key is more than one byte type"
  | .Output, 0x06 => sized 0 kd "Output Taproot tree key is more than one byte type"
  | .Output, 0x07 => sized 32 kd "Output Taproot BIP32 keypath key is not at 33 bytes"
  | _, 0xfc =>
    match proprietary_keydata kd with
    | .ok _ => .ok ()
    | .error _ => .error (.Refused .UnexpectedEnd)
  | _, _ => .ok ()

def dup_message (scope : Scope) (key_type : UInt8) : String :=
  match scope, key_type.toNat with
  | .Global, 0x00 => "Duplicate Key, unsigned tx already provided"
  | .Global, 0x01 => "Duplicate key, global xpub already provided"
  | .Global, 0xfb => "Duplicate Key, version already provided"
  | _, 0xfc => "Duplicate Key, proprietary key already found"
  | .Input, 0x00 => "Duplicate Key, input non-witness utxo already provided"
  | .Input, 0x01 => "Duplicate Key, input witness utxo already provided"
  | .Input, 0x02 => "Duplicate Key, input partial signature for pubkey already provided"
  | .Input, 0x03 => "Duplicate Key, input sighash type already provided"
  | .Input, 0x04 => "Duplicate Key, input redeemScript already provided"
  | .Input, 0x05 => "Duplicate Key, input witnessScript already provided"
  | .Input, 0x06 | .Output, 0x02 => "Duplicate Key, pubkey derivation path already provided"
  | .Input, 0x07 => "Duplicate Key, input final scriptSig already provided"
  | .Input, 0x08 => "Duplicate Key, input final scriptWitness already provided"
  | .Input, 0x0a => "Duplicate Key, input ripemd160 preimage already provided"
  | .Input, 0x0b => "Duplicate Key, input sha256 preimage already provided"
  | .Input, 0x0c => "Duplicate Key, input hash160 preimage already provided"
  | .Input, 0x0d => "Duplicate Key, input hash256 preimage already provided"
  | .Input, 0x13 => "Duplicate Key, input Taproot key signature already provided"
  | .Input, 0x14 => "Duplicate Key, input Taproot script signature already provided"
  | .Input, 0x15 => "Duplicate Key, input Taproot leaf script already provided"
  | .Input, 0x16 => "Duplicate Key, input Taproot BIP32 keypath already provided"
  | .Input, 0x17 => "Duplicate Key, input Taproot internal key already provided"
  | .Input, 0x18 => "Duplicate Key, input Taproot merkle root already provided"
  | .Output, 0x00 => "Duplicate Key, output redeemScript already provided"
  | .Output, 0x01 => "Duplicate Key, output witnessScript already provided"
  | .Output, 0x05 => "Duplicate Key, output Taproot internal key already provided"
  | .Output, 0x06 => "Duplicate Key, output Taproot tree already provided"
  | .Output, 0x07 => "Duplicate Key, output Taproot BIP32 keypath already provided"
  | _, _ => "Duplicate Key, key for unknown value already provided"

def WRONG_SIZE : String := "Size of value was not the stated size"

def exact_value (value : List UInt8) (needed left : ℕ) : Except Halt Unit :=
  if value.length = needed then .ok ()
  else if value.length < needed ∧ left < needed - value.length then .error (.Refused .UnexpectedEnd)
  else refuse WRONG_SIZE

def check_hd_keypath (value : List UInt8) : Except Halt Unit :=
  if value.isEmpty ∨ value.length % 4 ≠ 0 then refuse "Invalid length for HD key path" else .ok ()

def check_tap_keypath (value : List UInt8) (message : String) (left : ℕ) : Except Halt Unit := do
  let (n, rest) ← lift (read_compact_size value)
  let used := value.length - rest.length + n * 32
  if value.length < used then
    if left < used - value.length then .error (.Refused .UnexpectedEnd) else refuse message
  else check_hd_keypath (value.drop used)

def finished {α : Type} (r : Except DecodeError (α × List UInt8)) (fail : DecodeError → PsbtError) :
    Except Halt Unit :=
  match r with
  | .error e => .error (.Refused (fail e))
  | .ok (_, rest) => if rest.isEmpty then .ok () else refuse WRONG_SIZE

def signature_sized (value : List UInt8) (which : String) : Except Halt Unit :=
  if value.length < 64 then refuse ("Input Taproot " ++ which ++ " path signature is shorter than 64 bytes")
  else if 65 < value.length then refuse ("Input Taproot " ++ which ++ " path signature is longer than 65 bytes")
  else .ok ()

def read_no_witness : Decoder Transaction := do
  let version ← read_u32_le
  let inputs ← Transaction.read_vin
  let outputs ← Transaction.read_vout
  let lock_time ← read_u32_le
  pure ⟨version, inputs, outputs, lock_time⟩

def decode_no_witness (bytes : List UInt8) : Except DecodeError Transaction :=
  match read_no_witness bytes with
  | .error e => .error e
  | .ok (tx, []) => .ok tx
  | .ok (_, rest) => .error (.TrailingBytes rest.length)

def whole {α : Type} (r : Except DecodeError α) : Except Halt α :=
  match r with
  | .error (.TrailingBytes _) => .error (.Refused (.Core WRONG_SIZE))
  | r => lift r

def check_value (scope : Scope) (key_type : UInt8) (value : List UInt8) (left : ℕ) : Except Halt Unit :=
  match scope, key_type.toNat with
  | .Global, 0x00 => do
    let tx ← whole (decode_no_witness value)
    if tx.inputs.any fun i => !i.script_sig.isEmpty then .error (.Refused .NonEmptyScriptSig) else .ok ()
  | .Global, 0x01 => check_hd_keypath value
  | .Global, 0xfb => do
    exact_value value 4 left
    let (ver, _) ← lift (read_u32_le value)
    if 0 < ver then .error (.Refused .UnsupportedVersion) else .ok ()
  | .Input, 0x00 => (whole (Transaction.decode value)).map fun _ => ()
  | .Input, 0x01 =>
    finished ((do let _ ← read_u64_le; read_var_bytes : Decoder (List UInt8)) value) fun e =>
      if left + value.length < 9 then .UnexpectedEnd else map_decode_err e
  | .Input, 0x03 => exact_value value 4 left
  | .Input, 0x06 | .Output, 0x02 => check_hd_keypath value
  | .Input, 0x08 => finished (Transaction.read_witness value) map_decode_err
  | .Input, 0x13 => signature_sized value "key"
  | .Input, 0x14 => signature_sized value "script"
  | .Input, 0x15 => if value.isEmpty then refuse "Input Taproot leaf script must be at least 1 byte" else .ok ()
  | .Input, 0x16 => check_tap_keypath value "Input Taproot BIP32 keypath has an invalid length" left
  | .Input, 0x17 | .Input, 0x18 | .Output, 0x05 => exact_value value 32 left
  | .Output, 0x06 => check_tap_tree value
  | .Output, 0x07 => check_tap_keypath value "Output Taproot BIP32 keypath has an invalid length" left
  | _, _ => .ok ()

abbrev Pair := List UInt8 × List UInt8

abbrev KeyMap := List Pair

def KeyMap.get (map : KeyMap) (key_type : UInt8) : Option (List UInt8) :=
  (map.find? fun pair => pair.1.head? = some key_type).map Prod.snd

def lifted {α : Type} (read : Decoder α) : ByteReader Halt α := fun bytes => lift (read bytes)

def require (r : Except Halt Unit) : ByteReader Halt Unit := fun bytes => r.map fun _ => ((), bytes)

def remaining : ByteReader Halt ℕ := fun bytes => .ok (bytes.length, bytes)

end AvilaNode.Psbt

namespace AvilaNode

structure Psbt where
  tx : Transaction
  global : Psbt.KeyMap
  inputs : List Psbt.KeyMap
  outputs : List Psbt.KeyMap
deriving DecidableEq

end AvilaNode

namespace AvilaNode.Psbt

open ByteReader Decoder

section

variable (pubkey_is_valid : List UInt8 → Bool)

/-- What follows a key; `key[0]` panics where there is none. -/
def read_pair (scope : Scope) (map : KeyMap) (key : List UInt8) : ByteReader Halt Pair :=
  match key with
  | [] => throw .IndexOutOfRange
  | key_type :: kd => do
    require (check_key pubkey_is_valid scope key_type kd)
    if key ∈ map.map Prod.fst then throw (.Refused (.Core (dup_message scope key_type)))
    else
      let value ← lifted read_var_bytes
      let left ← remaining
      require (check_value scope key_type value left)
      pure (key, value)

/-- `read_map`, and the loop of `decode` over the global map, which must see its separator. -/
def read_map (scope : Scope) : ℕ → KeyMap → ByteReader Halt KeyMap
  | 0, _ => throw .Spins
  | turns + 1, map => do
    let left ← remaining
    if scope = .Global ∧ left = 0 then throw (.Refused .GlobalMapUnterminated)
    else
      let key ← lifted read_var_bytes
      if key = [] then pure map
      else
        let pair ← read_pair pubkey_is_valid scope map key
        read_map scope turns (map ++ [pair])

variable [Platform]

def check_utxo (input : TxIn) (map : KeyMap) : Except Halt Unit :=
  match map.get 0x00 with
  | none => .ok ()
  | some v => do
    let prev_tx ← lift (Transaction.decode v)
    if Platform.txid prev_tx ≠ input.previous_output.txid then refuse "Non-witness UTXO does not match outpoint hash"
    else if prev_tx.outputs.length ≤ input.previous_output.vout then
      refuse "Input specifies output index that does not exist"
    else .ok ()

def read_maps (scope : Scope) : List (KeyMap → Except Halt Unit) → ByteReader Halt (List KeyMap)
  | [] => pure []
  | check :: checks => do
    let left ← remaining
    if left = 0 then pure []
    else
      let map ← read_map pubkey_is_valid scope (left + 1) []
      require (check map)
      let maps ← read_maps scope checks
      pure (map :: maps)

def counted (maps : List KeyMap) (count : ℕ) (e : PsbtError) : Except Halt Unit :=
  if maps.length = count then .ok () else .error (.Refused e)

def read_global : ByteReader Halt (Transaction × KeyMap) := do
  let magic ← lifted (read_bytes 5)
  require (if magic = PSBT_MAGIC then .ok () else .error (.Refused .BadMagic))
  let left ← remaining
  let global ← read_map pubkey_is_valid .Global (left + 1) []
  match global.get 0x00 with
  | none => throw (.Refused .MissingUnsignedTx)
  | some tx_bytes => do
    let tx ← fun bytes => (lift (decode_no_witness tx_bytes)).map fun tx => (tx, bytes)
    pure (tx, global)

def read : ByteReader Halt Psbt := do
  let (tx, global) ← read_global pubkey_is_valid
  let inputs ← read_maps pubkey_is_valid .Input (tx.inputs.map check_utxo)
  require (counted inputs tx.inputs.length .InputCountMismatch)
  let outputs ← read_maps pubkey_is_valid .Output (tx.outputs.map fun _ _ => .ok ())
  require (counted outputs tx.outputs.length .OutputCountMismatch)
  let left ← remaining
  require (if left = 0 then .ok () else .error (.Refused .TrailingBytes))
  pure ⟨tx, global, inputs, outputs⟩

def decode (bytes : List UInt8) : Except Halt Psbt := (read pubkey_is_valid bytes).map Prod.fst

end

def rank (scope : Scope) (key_type : UInt8) : ℕ :=
  let t := key_type.toNat
  match scope with
  | .Global => if t = 0 then 0 else if t = 1 then 1 else if t = 0xfb then 2 else if t = 0xfc then 3 else 4
  | .Input =>
    if t ≤ 0x06 then t else if 0x0a ≤ t ∧ t ≤ 0x0d then t - 3 else if 0x13 ≤ t ∧ t ≤ 0x18 then t - 8
    else if t = 0x07 then 17 else if t = 0x08 then 18 else if t = 0xfc then 19 else 20
  | .Output =>
    if t ≤ 0x02 then t else if t = 0xfc then 3 else if 0x05 ≤ t ∧ t ≤ 0x07 then t - 1 else 8

def sort_key (scope : Scope) (key : List UInt8) : ℕ ×ₗ List ℕ :=
  toLex (rank scope (key.headD 0), key.map UInt8.toNat)

def sorted (scope : Scope) (map : KeyMap) : KeyMap :=
  map.mergeSort fun a b => decide (sort_key scope a.1 ≤ sort_key scope b.1)

def write_pair (pair : Pair) : List UInt8 := write_var_bytes pair.1 ++ write_var_bytes pair.2

def write_map (map : KeyMap) : List UInt8 := map.flatMap write_pair ++ [0x00]

def encode_scoped (scope : Scope) (map : KeyMap) : List UInt8 := write_map (sorted scope map)

def encode (p : Psbt) : List UInt8 :=
  PSBT_MAGIC ++ encode_scoped .Global p.global ++ p.inputs.flatMap (encode_scoped .Input) ++
    p.outputs.flatMap (encode_scoped .Output)

end AvilaNode.Psbt
