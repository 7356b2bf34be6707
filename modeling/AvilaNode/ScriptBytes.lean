import AvilaNode.TransactionCodec

/-! Scripts as byte strings: opcodes, pushes, script numbers, and the encodings of keys and signatures. -/

namespace AvilaNode.Interpreter

open ByteStrings

theorem forall_byte {p : UInt8 → Prop} (h : ∀ n : Fin 256, p (UInt8.ofNat n)) (b : UInt8) : p b := by
  simpa using h ⟨b.toNat, b.toNat_lt⟩

def OP_0 : UInt8 := 0x00
def OP_PUSHDATA1 : UInt8 := 0x4c
def OP_PUSHDATA2 : UInt8 := 0x4d
def OP_PUSHDATA4 : UInt8 := 0x4e
def OP_1NEGATE : UInt8 := 0x4f
def OP_1 : UInt8 := 0x51
def OP_16 : UInt8 := 0x60
def OP_NOP : UInt8 := 0x61
def OP_IF : UInt8 := 0x63
def OP_NOTIF : UInt8 := 0x64
def OP_ELSE : UInt8 := 0x67
def OP_ENDIF : UInt8 := 0x68
def OP_VERIFY : UInt8 := 0x69
def OP_TOALTSTACK : UInt8 := 0x6b
def OP_FROMALTSTACK : UInt8 := 0x6c
def OP_2DROP : UInt8 := 0x6d
def OP_2DUP : UInt8 := 0x6e
def OP_3DUP : UInt8 := 0x6f
def OP_2OVER : UInt8 := 0x70
def OP_2ROT : UInt8 := 0x71
def OP_2SWAP : UInt8 := 0x72
def OP_IFDUP : UInt8 := 0x73
def OP_DEPTH : UInt8 := 0x74
def OP_DROP : UInt8 := 0x75
def OP_DUP : UInt8 := 0x76
def OP_NIP : UInt8 := 0x77
def OP_OVER : UInt8 := 0x78
def OP_PICK : UInt8 := 0x79
def OP_ROLL : UInt8 := 0x7a
def OP_ROT : UInt8 := 0x7b
def OP_SWAP : UInt8 := 0x7c
def OP_TUCK : UInt8 := 0x7d
def OP_CAT : UInt8 := 0x7e
def OP_SUBSTR : UInt8 := 0x7f
def OP_LEFT : UInt8 := 0x80
def OP_RIGHT : UInt8 := 0x81
def OP_SIZE : UInt8 := 0x82
def OP_INVERT : UInt8 := 0x83
def OP_AND : UInt8 := 0x84
def OP_OR : UInt8 := 0x85
def OP_XOR : UInt8 := 0x86
def OP_EQUAL : UInt8 := 0x87
def OP_EQUALVERIFY : UInt8 := 0x88
def OP_1ADD : UInt8 := 0x8b
def OP_1SUB : UInt8 := 0x8c
def OP_2MUL : UInt8 := 0x8d
def OP_2DIV : UInt8 := 0x8e
def OP_NEGATE : UInt8 := 0x8f
def OP_ABS : UInt8 := 0x90
def OP_NOT : UInt8 := 0x91
def OP_0NOTEQUAL : UInt8 := 0x92
def OP_ADD : UInt8 := 0x93
def OP_SUB : UInt8 := 0x94
def OP_MUL : UInt8 := 0x95
def OP_DIV : UInt8 := 0x96
def OP_MOD : UInt8 := 0x97
def OP_LSHIFT : UInt8 := 0x98
def OP_RSHIFT : UInt8 := 0x99
def OP_BOOLAND : UInt8 := 0x9a
def OP_BOOLOR : UInt8 := 0x9b
def OP_NUMEQUAL : UInt8 := 0x9c
def OP_NUMEQUALVERIFY : UInt8 := 0x9d
def OP_NUMNOTEQUAL : UInt8 := 0x9e
def OP_LESSTHAN : UInt8 := 0x9f
def OP_GREATERTHAN : UInt8 := 0xa0
def OP_LESSTHANOREQUAL : UInt8 := 0xa1
def OP_GREATERTHANOREQUAL : UInt8 := 0xa2
def OP_MIN : UInt8 := 0xa3
def OP_MAX : UInt8 := 0xa4
def OP_WITHIN : UInt8 := 0xa5
def OP_RIPEMD160 : UInt8 := 0xa6
def OP_SHA1 : UInt8 := 0xa7
def OP_SHA256 : UInt8 := 0xa8
def OP_HASH160 : UInt8 := 0xa9
def OP_HASH256 : UInt8 := 0xaa
def OP_CODESEPARATOR : UInt8 := 0xab
def OP_CHECKSIG : UInt8 := 0xac
def OP_CHECKSIGVERIFY : UInt8 := 0xad
def OP_CHECKMULTISIG : UInt8 := 0xae
def OP_CHECKMULTISIGVERIFY : UInt8 := 0xaf
def OP_NOP1 : UInt8 := 0xb0
def OP_CHECKLOCKTIMEVERIFY : UInt8 := 0xb1
def OP_CHECKSEQUENCEVERIFY : UInt8 := 0xb2
def OP_NOP4 : UInt8 := 0xb3
def OP_NOP10 : UInt8 := 0xb9
def OP_CHECKSIGADD : UInt8 := 0xba

def DISABLED : List UInt8 :=
  [OP_CAT, OP_SUBSTR, OP_LEFT, OP_RIGHT, OP_INVERT, OP_AND, OP_OR, OP_XOR, OP_2MUL, OP_2DIV, OP_MUL, OP_DIV, OP_MOD,
    OP_LSHIFT, OP_RSHIFT]

def MAX_SCRIPT_ELEMENT_SIZE : ℕ := 520
def MAX_OPS_PER_SCRIPT : ℤ := 201
def MAX_STACK_SIZE : ℕ := 1000
def MAX_PUBKEYS_PER_MULTISIG : ℤ := 20
def MAX_SCRIPTNUM_SIZE : ℕ := 4
def MAX_DIRECT_PUSH : UInt8 := 0x4b

def STRICTENC : ScriptFlags := 1 <<< 1
def LOW_S : ScriptFlags := 1 <<< 3
def SIGPUSHONLY : ScriptFlags := 1 <<< 5
def MINIMALDATA : ScriptFlags := 1 <<< 6
def DISCOURAGE_UPGRADABLE_NOPS : ScriptFlags := 1 <<< 7
def CLEANSTACK : ScriptFlags := 1 <<< 8
def DISCOURAGE_UPGRADABLE_WITNESS_PROGRAM : ScriptFlags := 1 <<< 12
def MINIMALIF : ScriptFlags := 1 <<< 13
def NULLFAIL : ScriptFlags := 1 <<< 14
def WITNESS_PUBKEYTYPE : ScriptFlags := 1 <<< 15
def CONST_SCRIPTCODE : ScriptFlags := 1 <<< 16
def DISCOURAGE_UPGRADABLE_TAPROOT_VERSION : ScriptFlags := 1 <<< 18
def DISCOURAGE_OP_SUCCESS : ScriptFlags := 1 <<< 19
def DISCOURAGE_UPGRADABLE_PUBKEYTYPE : ScriptFlags := 1 <<< 20

def contains (flags other : ScriptFlags) : Bool := flags &&& other == other

inductive ScriptError where
  | EvalFalse
  | OpReturn
  | ScriptSize
  | PushSize
  | OpCount
  | StackSize
  | SigCount
  | PubkeyCount
  | Verify
  | EqualVerify
  | CheckMultisigVerify
  | CheckSigVerify
  | NumEqualVerify
  | BadOpcode
  | DisabledOpcode
  | InvalidStackOperation
  | InvalidAltstackOperation
  | UnbalancedConditional
  | NegativeLocktime
  | UnsatisfiedLocktime
  | SigHashType
  | SigDer
  | MinimalData
  | SigPushOnly
  | SigHighS
  | SigNullDummy
  | PubkeyType
  | CleanStack
  | MinimalIf
  | SigNullFail
  | DiscourageUpgradableNops
  | DiscourageUpgradableWitnessProgram
  | DiscourageUpgradableTaprootVersion
  | DiscourageOpSuccess
  | DiscourageUpgradablePubkeyType
  | WitnessProgramWrongLength
  | WitnessProgramWitnessEmpty
  | WitnessProgramMismatch
  | WitnessMalleated
  | WitnessMalleatedP2sh
  | WitnessUnexpected
  | WitnessPubkeyType
  | SchnorrSigSize
  | SchnorrSigHashType
  | SchnorrSig
  | TaprootWrongControlSize
  | TapscriptValidationWeight
  | TapscriptCheckMultisig
  | TapscriptMinimalIf
  | OpCodeSeparator
  | SigFindAndDelete
  | UnknownError
deriving DecidableEq, Repr

inductive SigVersion where
  | Base
  | WitnessV0
  | Taproot
  | Tapscript
deriving DecidableEq, Repr

def cast_to_bool : List UInt8 → Bool
  | [] => false
  | [last] => last != 0 && last != 0x80
  | byte :: bytes => byte != 0 || cast_to_bool bytes

def push_size (script : Script) (opcode : UInt8) (pc : ℕ) : Option (ℕ × ℕ) :=
  if opcode < OP_PUSHDATA1 then some (opcode.toNat, pc)
  else
    let width := if opcode = OP_PUSHDATA1 then 1 else if opcode = OP_PUSHDATA2 then 2 else 4
    if script.length < pc + width then none
    else some (value ((script.drop pc).take width), pc + width)

/-- The opcode at `pc` and what it pushes, and where `pc` is left, after a failure too. -/
def get_op (script : Script) (pc : ℕ) : Option (UInt8 × List UInt8) × ℕ :=
  match script[pc]? with
  | none => (none, pc)
  | some opcode =>
    if OP_PUSHDATA4 < opcode then (some (opcode, []), pc + 1)
    else
      match push_size script opcode (pc + 1) with
      | none => (none, pc + 1)
      | some (size, pc) =>
        if script.length - pc < size then (none, pc)
        else (some (opcode, (script.drop pc).take size), pc + size)

inductive Instruction where
  | Push (data : List UInt8)
  | Op (opcode : UInt8)
deriving DecidableEq, Repr

/-- `Instructions::next` at a position inside the script: the instruction and the position after it, or the
position of one that is cut short. -/
def next_instruction (bytes : Script) (start : ℕ) (opcode : UInt8) : Except ℕ (Instruction × ℕ) :=
  let cursor := start + 1
  let push_len :=
    if opcode ≤ MAX_DIRECT_PUSH then some (some (opcode.toNat, cursor))
    else if opcode = OP_PUSHDATA1 ∨ opcode = OP_PUSHDATA2 ∨ opcode = OP_PUSHDATA4 then
      let width := if opcode = OP_PUSHDATA1 then 1 else if opcode = OP_PUSHDATA2 then 2 else 4
      if cursor + width ≤ bytes.length then
        some (some (value ((bytes.drop cursor).take width), cursor + width))
      else some none
    else none
  match push_len with
  | none => .ok (.Op opcode, cursor)
  | some none => .error start
  | some (some (len, cursor)) =>
    if cursor + len ≤ bytes.length then .ok (.Push ((bytes.drop cursor).take len), cursor + len) else .error start

def instructions_from (bytes : Script) : ℕ → ℕ → List (Except ℕ Instruction)
  | 0, _ => []
  | fuel + 1, position =>
    match bytes[position]? with
    | none => []
    | some opcode =>
      match next_instruction bytes position opcode with
      | .error start => [.error start]
      | .ok (instruction, position) => .ok instruction :: instructions_from bytes fuel position

def instructions (script : Script) : List (Except ℕ Instruction) := instructions_from script script.length 0

def is_push_only (script : Script) : Bool := (instructions script).all fun
  | .ok (.Push _) => true
  | .ok (.Op opcode) => decide (opcode ≤ OP_16)
  | .error _ => false

def witness_program (script : Script) : Option (UInt8 × List UInt8) :=
  if script.length < 4 ∨ 42 < script.length then none
  else
    let op := script.getD 0 0
    let version := if op = OP_0 then some 0 else if OP_1 ≤ op ∧ op ≤ OP_16 then some (op - (OP_1 - 1)) else none
    match version with
    | none => none
    | some version => if (script.getD 1 0).toNat + 2 ≠ script.length then none else some (version, script.drop 2)

def push_slice (data : List UInt8) : List UInt8 :=
  let len := data.length
  (if len = 0 then [OP_0]
    else if len ≤ MAX_DIRECT_PUSH.toNat then [UInt8.ofNat len]
    else if len ≤ 0xff then [OP_PUSHDATA1, UInt8.ofNat len]
    else if len ≤ 0xffff then OP_PUSHDATA2 :: le 2 len
    else OP_PUSHDATA4 :: le 4 len) ++ data

/-- `encode_script_num` of any `i64`: little-endian, the sign in the top bit. -/
def encode_script_num (value : ℤ) : List UInt8 :=
  if value = 0 then []
  else
    let bytes := le_bytes 8 value.natAbs
    let top := bytes.getLastD 0
    if 0x80 ≤ top then bytes ++ [if value < 0 then 0x80 else 0]
    else if value < 0 then bytes.dropLast ++ [top ||| 0x80]
    else bytes

def script_num (vch : List UInt8) (require_minimal : Bool) (max_size : ℕ) : Except ScriptError ℤ :=
  let top := vch.getLastD 0
  if max_size < vch.length then .error .UnknownError
  else if require_minimal && !vch.isEmpty && top &&& 0x7f == 0
      && (decide (vch.length ≤ 1) || vch.getD (vch.length - 2) 0 &&& 0x80 == 0) then
    .error .UnknownError
  else
    let value : BitVec 64 := vch.zipIdx.foldl (fun value b => value ||| BitVec.ofNat 64 b.1.toNat <<< (8 * b.2)) 0
    if !vch.isEmpty && top &&& 0x80 != 0 then .ok
      (-(value &&& ~~~((0x80 : BitVec 64) <<< (8 * (vch.length - 1)))).toInt)
    else .ok value.toInt

def getint (v : ℤ) : ℤ := max (-2 ^ 31) (min v (2 ^ 31 - 1))

def check_minimal_push (data : List UInt8) (opcode : UInt8) : Bool :=
  if data.isEmpty then opcode == OP_0
  else if data.length = 1 ∧ 1 ≤ data.getD 0 0 ∧ data.getD 0 0 ≤ 16 then false
  else if data.length = 1 ∧ data.getD 0 0 = 0x81 then false
  else if data.length ≤ 75 then opcode == UInt8.ofNat data.length
  else if data.length ≤ 255 then opcode == OP_PUSHDATA1
  else if data.length ≤ 65535 then opcode == OP_PUSHDATA2
  else true

def is_op_success (opcode : UInt8) : Bool :=
  opcode == 80 || opcode == 98 || (decide (126 ≤ opcode) && decide (opcode ≤ 129))
    || (decide (131 ≤ opcode) && decide (opcode ≤ 134)) || (decide (137 ≤ opcode) && decide (opcode ≤ 138))
    || (decide (141 ≤ opcode) && decide (opcode ≤ 142)) || (decide (149 ≤ opcode) && decide (opcode ≤ 153))
    || (decide (187 ≤ opcode) && decide (opcode ≤ 254))

def is_pay_to_anchor (version : UInt8) (program : List UInt8) : Bool := version == 1 && program == [0x4e, 0x73]

def is_compressed_or_uncompressed_pubkey (key : List UInt8) : Bool :=
  if key.length < 33 then false
  else if key.getD 0 0 = 0x04 then key.length == 65
  else if key.getD 0 0 = 0x02 ∨ key.getD 0 0 = 0x03 then key.length == 33
  else false

def is_compressed_pubkey (key : List UInt8) : Bool :=
  key.length == 33 && (key.getD 0 0 == 0x02 || key.getD 0 0 == 0x03)

def is_valid_signature_encoding (sig : List UInt8) : Bool :=
  let byte (i : ℕ) : UInt8 := sig.getD i 0
  let len_r := (byte 3).toNat
  let len_s := (byte (5 + len_r)).toNat
  if sig.length < 9 ∨ 73 < sig.length then false
  else if byte 0 ≠ 0x30 ∨ (byte 1).toNat ≠ sig.length - 3 then false
  else if sig.length ≤ 5 + len_r then false
  else if len_r + len_s + 7 ≠ sig.length then false
  else if byte 2 ≠ 0x02 ∨ len_r = 0 ∨ byte 4 &&& 0x80 ≠ 0 then false
  else if 1 < len_r ∧ byte 4 = 0x00 ∧ byte 5 &&& 0x80 = 0 then false
  else if byte (len_r + 4) ≠ 0x02 ∨ len_s = 0 ∨ byte (len_r + 6) &&& 0x80 ≠ 0 then false
  else if 1 < len_s ∧ byte (len_r + 6) = 0x00 ∧ byte (len_r + 7) &&& 0x80 = 0 then false
  else true

def SECP256K1_ORDER : ℕ := 0xfffffffffffffffffffffffffffffffebaaedce6af48a03bbfd25e8cd0364141

def SECP256K1_HALF_ORDER : ℕ := 0x7fffffffffffffffffffffffffffffff5d576e7357a4501ddfe92f46681b20a0

def cmp_be256 (bytes : List UInt8) (bound : ℕ) : Ordering :=
  if 32 < bytes.length then .gt else compare (value bytes.reverse) bound

def check_low_s (sig_der : List UInt8) : Bool :=
  let len_r := (sig_der.getD 3 0).toNat
  let len_s := (sig_der.getD (5 + len_r) 0).toNat
  if sig_der.length < 8 ∨ sig_der.getD 0 0 ≠ 0x30 then false
  else if sig_der.length ≤ 5 + len_r then false
  else if len_r + len_s + 6 ≠ sig_der.length then false
  else
    let r_bytes := (sig_der.drop 4).take len_r
    let s_bytes := (sig_der.drop (6 + len_r)).take len_s
    if cmp_be256 r_bytes SECP256K1_ORDER ≠ .lt ∨ cmp_be256 s_bytes SECP256K1_ORDER ≠ .lt then true
    else cmp_be256 s_bytes SECP256K1_HALF_ORDER != .gt

def check_signature_encoding_low_s (sig : List UInt8) : Except ScriptError Unit :=
  if !is_valid_signature_encoding sig then .error .SigDer
  else if !check_low_s sig.dropLast then .error .SigHighS
  else .ok ()

/-- The trailing byte without `SIGHASH_ANYONECANPAY` is `SIGHASH_ALL`, `SIGHASH_NONE` or `SIGHASH_SINGLE`. -/
def is_defined_hashtype (sig : List UInt8) : Bool :=
  match sig.getLast? with
  | none => false
  | some b => decide (1 ≤ b &&& 0x7f) && decide (b &&& 0x7f ≤ 3)

def check_signature_encoding (sig : List UInt8) (flags : ScriptFlags) : Except ScriptError Unit :=
  if sig.isEmpty then .ok ()
  else if flags &&& (DERSIG ||| LOW_S ||| STRICTENC) ≠ 0 ∧ !is_valid_signature_encoding sig then .error .SigDer
  else
    match (if contains flags LOW_S then check_signature_encoding_low_s sig else .ok ()) with
    | .error e => .error e
    | .ok () => if contains flags STRICTENC ∧ !is_defined_hashtype sig then .error .SigHashType else .ok ()

def check_pubkey_encoding (pubkey : List UInt8) (flags : ScriptFlags) (sigversion : SigVersion) :
    Except ScriptError Unit :=
  if contains flags STRICTENC ∧ !is_compressed_or_uncompressed_pubkey pubkey then .error .PubkeyType
  else if contains flags WITNESS_PUBKEYTYPE ∧ sigversion = .WitnessV0 ∧ !is_compressed_pubkey pubkey then
    .error .WitnessPubkeyType
  else .ok ()

/-- The matches of `b` one after another from `pc` on; each takes a byte at least. -/
def skip_matches (script b : List UInt8) : ℕ → ℕ → ℕ → ℕ × ℕ
  | 0, pc, found => (pc, found)
  | fuel + 1, pc, found =>
    if b.length ≤ script.length - pc ∧ (script.drop pc).take b.length = b then
      skip_matches script b fuel (pc + b.length) (found + 1)
    else (pc, found)

def find_and_delete_loop (script b : List UInt8) :
    ℕ → List UInt8 → ℕ → ℕ → ℕ → List UInt8 × ℕ × ℕ
  | 0, result, found, _, pc2 => (result, found, pc2)
  | fuel + 1, result, found, pc, pc2 =>
    let result := result ++ (script.drop pc2).take (pc - pc2)
    let (pc, found) := skip_matches script b (script.length + 1) pc found
    match get_op script pc with
    | (none, _) => (result, found, pc)
    | (some _, next) => find_and_delete_loop script b fuel result found next pc

def find_and_delete (script b : List UInt8) : List UInt8 × ℕ :=
  if b.isEmpty then (script, 0)
  else
    let (result, found, pc2) := find_and_delete_loop script b (script.length + 1) [] 0 0 0
    if 0 < found then (result ++ script.drop pc2, found) else (script, found)

structure ConditionStack where
  size : ℕ
  first_false : ℕ
deriving DecidableEq, Repr

namespace ConditionStack

def NO_FALSE : ℕ := 2 ^ 32 - 1

def empty : ConditionStack := ⟨0, NO_FALSE⟩

def is_empty (c : ConditionStack) : Bool := c.size == 0

def all_true (c : ConditionStack) : Bool := c.first_false == NO_FALSE

/-- `none`, here and below, is an overflow of `size`. -/
def push (c : ConditionStack) (f : Bool) : Option ConditionStack :=
  let first_false := if c.first_false = NO_FALSE ∧ f = false then c.size else c.first_false
  if c.size = NO_FALSE then none else some ⟨c.size + 1, first_false⟩

def pop (c : ConditionStack) : Option ConditionStack :=
  if c.size = 0 then none
  else some ⟨c.size - 1, if c.first_false = c.size - 1 then NO_FALSE else c.first_false⟩

def toggle_top (c : ConditionStack) : Option ConditionStack :=
  if c.size = 0 then none
  else if c.first_false = NO_FALSE then some { c with first_false := c.size - 1 }
  else if c.first_false = c.size - 1 then some { c with first_false := NO_FALSE }
  else some c

end ConditionStack

end AvilaNode.Interpreter
