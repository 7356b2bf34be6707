import AvilaNode.Connect
import AvilaNode.OraclePrograms
import AvilaNode.ScriptBytes

/-! The script machine: a program that asks its signature checker. -/

namespace AvilaNode.Interpreter

open OraclePrograms

def TAPROOT_LEAF_MASK : UInt8 := 0xfe
def TAPROOT_LEAF_TAPSCRIPT : UInt8 := 0xc0
def TAPROOT_CONTROL_BASE_SIZE : ℕ := 33
def TAPROOT_CONTROL_NODE_SIZE : ℕ := 32
def TAPROOT_CONTROL_MAX_SIZE : ℕ := TAPROOT_CONTROL_BASE_SIZE + TAPROOT_CONTROL_NODE_SIZE * 128
def WITNESS_V1_TAPROOT_SIZE : ℕ := 32
def WITNESS_V0_SCRIPTHASH_SIZE : ℕ := 32
def WITNESS_V0_KEYHASH_SIZE : ℕ := 20
def VALIDATION_WEIGHT_PER_SIGOP_PASSED : ℤ := 50
def VALIDATION_WEIGHT_OFFSET : ℤ := 50
def ANNEX_TAG : UInt8 := 0x50

abbrev Element := List UInt8

class Digests where
  sha256 : List UInt8 → List UInt8
  ripemd160 : List UInt8 → List UInt8
  sha1 : List UInt8 → List UInt8

open Digests

structure ExecutionData where
  codeseparator_pos : ℕ
  codeseparator_pos_init : Bool
  annex_present : Bool
  annex_init : Bool
  annex_hash : Option (List UInt8)
  tapleaf_hash : Option (List UInt8)
  tapleaf_hash_init : Bool
  validation_weight_left : ℤ
  validation_weight_left_init : Bool
  output_hash : Option (List UInt8)
deriving DecidableEq, Repr

def ExecutionData.default : ExecutionData := ⟨0, false, false, false, none, none, false, 0, false, none⟩

inductive Query where
  | check_ecdsa_signature (sig pubkey script_code : List UInt8) (sigversion : SigVersion)
  | check_schnorr_signature (sig pubkey : List UInt8) (sigversion : SigVersion) (execdata : ExecutionData)
  | check_locktime (locktime : ℤ)
  | check_sequence (sequence : ℤ)
  | verify_taproot_commitment (control program tapleaf_hash : List UInt8)
deriving DecidableEq

abbrev Answer : Query → Type
  | .check_ecdsa_signature .. => Bool
  | .check_schnorr_signature .. => Except ScriptError Unit × ExecutionData
  | .check_locktime _ => Bool
  | .check_sequence _ => Bool
  | .verify_taproot_commitment .. => Bool

/-- An error of a script, or a panic: an index out of range or an overflow. -/
inductive Halt where
  | error (e : ScriptError)
  | panic
deriving DecidableEq, Repr

/-- The locals of `eval_script`; the tops of the stacks come first. -/
structure Machine where
  stack : List Element
  altstack : List Element
  cond : ConditionStack
  op_count : ℤ
  pbegincodehash : ℕ
  execdata : ExecutionData
  pc : ℕ
  opcode_pos : ℕ
deriving DecidableEq, Repr

instance : Nonempty Machine := ⟨⟨[], [], ⟨0, 0⟩, 0, 0, .default, 0, 0⟩⟩

structure Env where
  script : Script
  flags : ScriptFlags
  sigversion : SigVersion
deriving DecidableEq, Repr

namespace Env

def has (env : Env) (flag : ScriptFlags) : Bool := contains env.flags flag

def pre_tapscript (env : Env) : Bool := env.sigversion == .Base || env.sigversion == .WitnessV0

end Env

abbrev Run (α : Type) : Type := Exec Answer Machine Halt α

def fail {S α : Type} (e : ScriptError) : Exec Answer S Halt α := Exec.throw (.error e)

def panics {S α : Type} : Exec Answer S Halt α := Exec.throw .panic

def attempt {S α : Type} (x : Except ScriptError α) : Exec Answer S Halt α := Exec.lift (x.mapError .error)

/-- `i64` arithmetic in a build with overflow checks. -/
def checked (value : ℤ) : Run ℤ := if i64_fits value then pure value else panics

def top (n : ℕ) : Run Element := do
  let m ← Exec.get
  match n, m.stack[n - 1]? with
  | 0, _ => panics
  | _ + 1, none => panics
  | _ + 1, some v => pure v

def push (v : Element) : Run Unit := Exec.modify fun m => { m with stack := v :: m.stack }

def pop : Run Unit := Exec.modify fun m => { m with stack := m.stack.tail }

def remove (n : ℕ) : Run Element := do
  let v ← top n
  Exec.modify fun m => { m with stack := m.stack.eraseIdx (n - 1) }
  pure v

def swap (i j : ℕ) : Run Unit := do
  let v ← top i
  let w ← top j
  Exec.modify fun m => { m with stack := (m.stack.set (i - 1) w).set (j - 1) v }

def insert (n : ℕ) (v : Element) : Run Unit := do
  let m ← Exec.get
  if m.stack.length < n then panics
  else Exec.modify fun m => { m with stack := m.stack.insertIdx n v }

def require (n : ℕ) (e : ScriptError := .InvalidStackOperation) : Run Unit := do
  let m ← Exec.get
  if m.stack.length < n then fail e else pure ()

def set_cond (cond : Option ConditionStack) : Run Unit :=
  match cond with
  | none => panics
  | some cond => Exec.modify fun m => { m with cond }

def bool_element (value : Bool) : Element := if value then [1] else []

def push_verdict (value verify : Bool) (e : ScriptError) : Run Unit := do
  push (bool_element value)
  if verify then
    if value then pop else fail e
  else pure ()

def number (env : Env) (n max_size : ℕ) : Run ℤ := do
  let v ← top n
  attempt (script_num v (env.has MINIMALDATA) max_size)

def op_checklocktimeverify (env : Env) : Run Unit :=
  if !env.has CHECKLOCKTIMEVERIFY then pure ()
  else do
    require 1
    let locktime ← number env 1 5
    if locktime < 0 then fail .NegativeLocktime
    else do
      let satisfied ← Exec.ask (.check_locktime locktime)
      if !satisfied then fail .UnsatisfiedLocktime else pure ()

def op_checksequenceverify (env : Env) : Run Unit :=
  if !env.has CHECKSEQUENCEVERIFY then pure ()
  else do
    require 1
    let sequence ← number env 1 5
    if sequence < 0 then fail .NegativeLocktime
    else if sequence.toNat &&& SEQUENCE_LOCKTIME_DISABLE_FLAG ≠ 0 then pure ()
    else do
      let satisfied ← Exec.ask (.check_sequence sequence)
      if !satisfied then fail .UnsatisfiedLocktime else pure ()

def op_nop (env : Env) : Run Unit :=
  if env.has DISCOURAGE_UPGRADABLE_NOPS then fail .DiscourageUpgradableNops else pure ()

def not_minimal_if (vch : Element) : Bool := decide (1 < vch.length) || (vch.length == 1 && vch.getD 0 0 != 1)

def check_minimal_if (env : Env) (vch : Element) : Run Unit :=
  if env.sigversion = .Tapscript ∧ not_minimal_if vch then fail .TapscriptMinimalIf
  else if env.sigversion = .WitnessV0 ∧ env.has MINIMALIF ∧ not_minimal_if vch then fail .MinimalIf
  else pure ()

def push_cond (value : Bool) : Run Unit := do
  let m ← Exec.get
  set_cond (m.cond.push value)

def op_if (env : Env) (opcode : UInt8) (f_exec : Bool) : Run Unit :=
  if f_exec then do
    require 1 .UnbalancedConditional
    let vch ← top 1
    check_minimal_if env vch
    pop
    push_cond (cast_to_bool vch != (opcode == OP_NOTIF))
  else push_cond false

def op_else : Run Unit := do
  let m ← Exec.get
  if m.cond.is_empty then fail .UnbalancedConditional else set_cond m.cond.toggle_top

def op_endif : Run Unit := do
  let m ← Exec.get
  if m.cond.is_empty then fail .UnbalancedConditional else set_cond m.cond.pop

def op_verify : Run Unit := do
  require 1
  let vch ← top 1
  if cast_to_bool vch then pop else fail .Verify

def op_toaltstack : Run Unit := do
  require 1
  Exec.modify fun m => { m with stack := m.stack.tail, altstack := m.stack.headD [] :: m.altstack }

def op_fromaltstack : Run Unit := do
  let m ← Exec.get
  if m.altstack.isEmpty then fail .InvalidAltstackOperation
  else Exec.modify fun m => { m with stack := m.altstack.headD [] :: m.stack, altstack := m.altstack.tail }

def op_2drop : Run Unit := do
  require 2
  pop
  pop

def op_2dup : Run Unit := do
  require 2
  let v1 ← top 2
  let v2 ← top 1
  push v1
  push v2

def op_3dup : Run Unit := do
  require 3
  let v1 ← top 3
  let v2 ← top 2
  let v3 ← top 1
  push v1
  push v2
  push v3

def op_2over : Run Unit := do
  require 4
  let v1 ← top 4
  let v2 ← top 3
  push v1
  push v2

def op_2rot : Run Unit := do
  require 6
  let v1 ← remove 6
  let v2 ← remove 5
  push v1
  push v2

def op_2swap : Run Unit := do
  require 4
  swap 4 2
  swap 3 1

def op_ifdup : Run Unit := do
  require 1
  let v ← top 1
  if cast_to_bool v then push v else pure ()

def op_depth : Run Unit := do
  let m ← Exec.get
  push (encode_script_num m.stack.length)

def op_drop : Run Unit := do
  require 1
  pop

def op_dup : Run Unit := do
  require 1
  let v ← top 1
  push v

def op_nip : Run Unit := do
  require 2
  let _ ← remove 2
  pure ()

def op_over : Run Unit := do
  require 2
  let v ← top 2
  push v

def op_pick (env : Env) (opcode : UInt8) : Run Unit := do
  require 2
  let n ← number env 1 MAX_SCRIPTNUM_SIZE
  let n := getint n
  pop
  let m ← Exec.get
  if n < 0 ∨ (m.stack.length : ℤ) ≤ n then fail .InvalidStackOperation
  else do
    let v ← if opcode = OP_ROLL then remove (n.toNat + 1) else top (n.toNat + 1)
    push v

def op_rot : Run Unit := do
  require 3
  swap 3 2
  swap 2 1

def op_swap : Run Unit := do
  require 2
  swap 2 1

def op_tuck : Run Unit := do
  require 2
  let v ← top 1
  insert 2 v

def op_size : Run Unit := do
  require 1
  let v ← top 1
  push (encode_script_num v.length)

def op_equal (opcode : UInt8) : Run Unit := do
  require 2
  let v1 ← top 2
  let v2 ← top 1
  pop
  pop
  push_verdict (v1 == v2) (opcode == OP_EQUALVERIFY) .EqualVerify

def wrapping (value : ℤ) : ℤ := (BitVec.ofInt 64 value).toInt

def of_bool (value : Bool) : ℤ := if value then 1 else 0

def unary (opcode : UInt8) (bn : ℤ) : ℤ :=
  if opcode = OP_1ADD then wrapping (bn + 1)
  else if opcode = OP_1SUB then wrapping (bn - 1)
  else if opcode = OP_NEGATE then wrapping (-bn)
  else if opcode = OP_ABS then if bn < 0 then wrapping (-bn) else bn
  else if opcode = OP_NOT then of_bool (bn == 0)
  else of_bool (bn != 0)

def op_unary (env : Env) (opcode : UInt8) : Run Unit := do
  require 1
  let bn ← number env 1 MAX_SCRIPTNUM_SIZE
  pop
  push (encode_script_num (unary opcode bn))

def binary (opcode : UInt8) (bn1 bn2 : ℤ) : ℤ :=
  if opcode = OP_ADD then wrapping (bn1 + bn2)
  else if opcode = OP_SUB then wrapping (bn1 - bn2)
  else if opcode = OP_BOOLAND then of_bool (bn1 != 0 && bn2 != 0)
  else if opcode = OP_BOOLOR then of_bool (bn1 != 0 || bn2 != 0)
  else if opcode = OP_NUMEQUAL ∨ opcode = OP_NUMEQUALVERIFY then of_bool (bn1 == bn2)
  else if opcode = OP_NUMNOTEQUAL then of_bool (bn1 != bn2)
  else if opcode = OP_LESSTHAN then of_bool (decide (bn1 < bn2))
  else if opcode = OP_GREATERTHAN then of_bool (decide (bn2 < bn1))
  else if opcode = OP_LESSTHANOREQUAL then of_bool (decide (bn1 ≤ bn2))
  else if opcode = OP_GREATERTHANOREQUAL then of_bool (decide (bn2 ≤ bn1))
  else if opcode = OP_MIN then min bn1 bn2
  else max bn1 bn2

def op_binary (env : Env) (opcode : UInt8) : Run Unit := do
  require 2
  let bn1 ← number env 2 MAX_SCRIPTNUM_SIZE
  let bn2 ← number env 1 MAX_SCRIPTNUM_SIZE
  pop
  pop
  push (encode_script_num (binary opcode bn1 bn2))
  if opcode = OP_NUMEQUALVERIFY then do
    let v ← top 1
    if cast_to_bool v then pop else fail .NumEqualVerify
  else pure ()

def op_within (env : Env) : Run Unit := do
  require 3
  let bn1 ← number env 3 MAX_SCRIPTNUM_SIZE
  let bn2 ← number env 2 MAX_SCRIPTNUM_SIZE
  let bn3 ← number env 1 MAX_SCRIPTNUM_SIZE
  pop
  pop
  pop
  push (bool_element (decide (bn2 ≤ bn1 ∧ bn1 < bn3)))

def op_hash [Digests] (opcode : UInt8) : Run Unit := do
  require 1
  let vch ← top 1
  pop
  push (if opcode = OP_RIPEMD160 then ripemd160 vch
    else if opcode = OP_SHA1 then sha1 vch
    else if opcode = OP_SHA256 then sha256 vch
    else if opcode = OP_HASH160 then ripemd160 (sha256 vch)
    else sha256 (sha256 vch))

def op_codeseparator : Run Unit := Exec.modify fun m =>
  { m with pbegincodehash := m.pc, execdata := { m.execdata with codeseparator_pos := m.opcode_pos } }

def script_code (env : Env) : Run (List UInt8) := do
  let m ← Exec.get
  if env.script.length < m.pbegincodehash then panics else pure (env.script.drop m.pbegincodehash)

def drop_signature (env : Env) (code sig : List UInt8) : Run (List UInt8) :=
  let cut := find_and_delete code (push_slice sig)
  if 0 < cut.2 ∧ env.has CONST_SCRIPTCODE then fail .SigFindAndDelete else pure cut.1

def signed_code (env : Env) (sig : Element) : Run (List UInt8) := do
  let code ← script_code env
  if env.sigversion = .Base then drop_signature env code sig else pure code

def check_null_fail (env : Env) (success : Bool) (sig : Element) : Run Unit :=
  if !success ∧ env.has NULLFAIL ∧ !sig.isEmpty then fail .SigNullFail else pure ()

def check_encodings (env : Env) (sig pubkey : Element) : Run Unit := do
  attempt (check_signature_encoding sig env.flags)
  attempt (check_pubkey_encoding pubkey env.flags env.sigversion)

def eval_checksig_pre_tapscript (env : Env) (sig pubkey : Element) : Run Bool := do
  let code ← signed_code env sig
  check_encodings env sig pubkey
  let success ← Exec.ask (.check_ecdsa_signature sig pubkey code env.sigversion)
  check_null_fail env success sig
  pure success

def spend_validation_weight : Run Unit := do
  let m ← Exec.get
  let left ← checked (m.execdata.validation_weight_left - VALIDATION_WEIGHT_PER_SIGOP_PASSED)
  Exec.modify fun m => { m with execdata := { m.execdata with validation_weight_left := left } }
  if left < 0 then fail .TapscriptValidationWeight else pure ()

def check_schnorr (sig pubkey : Element) (sigversion : SigVersion) : Run Unit := do
  let m ← Exec.get
  let answer ← Exec.ask (Query.check_schnorr_signature sig pubkey sigversion m.execdata)
  Exec.modify fun m => { m with execdata := answer.2 }
  attempt answer.1

def check_tapscript_key (env : Env) (sig pubkey : Element) : Run Unit :=
  if pubkey.isEmpty then fail .PubkeyType
  else if pubkey.length = 32 then
    if !sig.isEmpty then check_schnorr sig pubkey .Tapscript else pure ()
  else if env.has DISCOURAGE_UPGRADABLE_PUBKEYTYPE then fail .DiscourageUpgradablePubkeyType
  else pure ()

def eval_checksig_tapscript (env : Env) (sig pubkey : Element) : Run Bool := do
  if !sig.isEmpty then spend_validation_weight else pure ()
  check_tapscript_key env sig pubkey
  pure (!sig.isEmpty)

def eval_checksig (env : Env) (sig pubkey : Element) : Run Bool :=
  match env.sigversion with
  | .Base => eval_checksig_pre_tapscript env sig pubkey
  | .WitnessV0 => eval_checksig_pre_tapscript env sig pubkey
  | .Tapscript => eval_checksig_tapscript env sig pubkey
  | .Taproot => panics

def op_checksig (env : Env) (opcode : UInt8) : Run Unit := do
  require 2
  let sig ← top 2
  let pubkey ← top 1
  let success ← eval_checksig env sig pubkey
  pop
  pop
  push_verdict success (opcode == OP_CHECKSIGVERIFY) .CheckSigVerify

def op_checksigadd (env : Env) : Run Unit :=
  if env.pre_tapscript then fail .BadOpcode
  else do
    require 3
    let sig ← top 3
    let num ← number env 2 MAX_SCRIPTNUM_SIZE
    let pubkey ← top 1
    let success ← eval_checksig env sig pubkey
    pop
    pop
    pop
    let sum ← checked (num + of_bool success)
    push (encode_script_num sum)

def count_ops (n : ℤ) : Run Unit := do
  let m ← Exec.get
  let op_count ← checked (m.op_count + n)
  Exec.modify fun m => { m with op_count }
  if MAX_OPS_PER_SCRIPT < op_count then fail .OpCount else pure ()

def drop_signatures (env : Env) : ℕ → ℕ → List UInt8 → Run (List UInt8)
  | _, 0, code => pure code
  | isig, count + 1, code => do
    let sig ← top isig
    let code ← drop_signature env code sig
    drop_signatures env (isig + 1) count code

def multisig_code (env : Env) (isig sigs_count : ℕ) : Run (List UInt8) := do
  let code ← script_code env
  if env.sigversion = .Base then drop_signatures env isig sigs_count code else pure code

def match_signatures (env : Env) (code : List UInt8) : ℕ → ℕ → ℕ → ℕ → Run Bool
  | _, 0, _, _ => pure true
  | _, _ + 1, _, 0 => pure false
  | isig, sigs_count + 1, ikey, keys_count + 1 => do
    let sig ← top isig
    let pubkey ← top ikey
    check_encodings env sig pubkey
    let ok ← Exec.ask (.check_ecdsa_signature sig pubkey code env.sigversion)
    let isig := if ok then isig + 1 else isig
    let sigs_count := if ok then sigs_count else sigs_count + 1
    if keys_count < sigs_count then pure false else match_signatures env code isig sigs_count (ikey + 1) keys_count

def check_null_fail_top (env : Env) (success : Bool) (ikey2 : ℕ) : Run Unit :=
  if !success ∧ env.has NULLFAIL ∧ ikey2 = 0 then do
    let v ← top 1
    if !v.isEmpty then fail .SigNullFail else pure ()
  else pure ()

def pop_arguments (env : Env) (success : Bool) : ℕ → ℕ → Run Unit
  | 0, _ => pure ()
  | i + 1, ikey2 => do
    check_null_fail_top env success ikey2
    pop
    pop_arguments env success i (ikey2 - 1)

def check_null_dummy (env : Env) : Run Unit :=
  if env.has NULLDUMMY then do
    let v ← top 1
    if !v.isEmpty then fail .SigNullDummy else pure ()
  else pure ()

def op_checkmultisig (env : Env) (opcode : UInt8) : Run Unit :=
  if env.sigversion = .Tapscript then fail .TapscriptCheckMultisig
  else do
    require 1
    let n ← number env 1 MAX_SCRIPTNUM_SIZE
    let keys_count := getint n
    if keys_count < 0 ∨ MAX_PUBKEYS_PER_MULTISIG < keys_count then fail .PubkeyCount
    else do
      count_ops keys_count
      let keys_count := keys_count.toNat
      require (2 + keys_count)
      let n ← number env (2 + keys_count) MAX_SCRIPTNUM_SIZE
      let sigs_count := getint n
      if sigs_count < 0 ∨ (keys_count : ℤ) < sigs_count then fail .SigCount
      else do
        let sigs_count := sigs_count.toNat
        let isig := 3 + keys_count
        require (isig + sigs_count)
        let code ← multisig_code env isig sigs_count
        let success ← match_signatures env code isig sigs_count 2 keys_count
        pop_arguments env success (isig + sigs_count - 1) (keys_count + 2)
        require 1
        check_null_dummy env
        pop
        push_verdict success (opcode == OP_CHECKMULTISIGVERIFY) .CheckMultisigVerify

def eval_plain [Digests] (opcode : UInt8) : Run Unit :=
  if opcode = OP_1NEGATE ∨ OP_1 ≤ opcode ∧ opcode ≤ OP_16 then push (encode_script_num ((opcode.toNat : ℤ) - 0x50))
  else if opcode = OP_NOP then pure ()
  else if opcode = OP_ELSE then op_else
  else if opcode = OP_ENDIF then op_endif
  else if opcode = OP_VERIFY then op_verify
  else if opcode = OP_RETURN then fail .OpReturn
  else if opcode = OP_TOALTSTACK then op_toaltstack
  else if opcode = OP_FROMALTSTACK then op_fromaltstack
  else if opcode = OP_2DROP then op_2drop
  else if opcode = OP_2DUP then op_2dup
  else if opcode = OP_3DUP then op_3dup
  else if opcode = OP_2OVER then op_2over
  else if opcode = OP_2ROT then op_2rot
  else if opcode = OP_2SWAP then op_2swap
  else if opcode = OP_IFDUP then op_ifdup
  else if opcode = OP_DEPTH then op_depth
  else if opcode = OP_DROP then op_drop
  else if opcode = OP_DUP then op_dup
  else if opcode = OP_NIP then op_nip
  else if opcode = OP_OVER then op_over
  else if opcode = OP_ROT then op_rot
  else if opcode = OP_SWAP then op_swap
  else if opcode = OP_TUCK then op_tuck
  else if opcode = OP_SIZE then op_size
  else if opcode = OP_EQUAL ∨ opcode = OP_EQUALVERIFY then op_equal opcode
  else if OP_RIPEMD160 ≤ opcode ∧ opcode ≤ OP_HASH256 then op_hash opcode
  else if opcode = OP_CODESEPARATOR then op_codeseparator
  else fail .BadOpcode

def eval_op [Digests] (env : Env) (opcode : UInt8) (f_exec : Bool) : Run Unit :=
  if opcode = OP_CHECKLOCKTIMEVERIFY then op_checklocktimeverify env
  else if opcode = OP_CHECKSEQUENCEVERIFY then op_checksequenceverify env
  else if opcode = OP_NOP1 ∨ OP_NOP4 ≤ opcode ∧ opcode ≤ OP_NOP10 then op_nop env
  else if opcode = OP_IF ∨ opcode = OP_NOTIF then op_if env opcode f_exec
  else if opcode = OP_PICK ∨ opcode = OP_ROLL then op_pick env opcode
  else if opcode ∈ [OP_1ADD, OP_1SUB, OP_NEGATE, OP_ABS, OP_NOT, OP_0NOTEQUAL] then op_unary env opcode
  else if opcode ∈ [OP_ADD, OP_SUB, OP_BOOLAND, OP_BOOLOR, OP_NUMEQUAL, OP_NUMEQUALVERIFY, OP_NUMNOTEQUAL,
    OP_LESSTHAN,
      OP_GREATERTHAN, OP_LESSTHANOREQUAL, OP_GREATERTHANOREQUAL, OP_MIN, OP_MAX] then
    op_binary env opcode
  else if opcode = OP_WITHIN then op_within env
  else if opcode = OP_CHECKSIG ∨ opcode = OP_CHECKSIGVERIFY then op_checksig env opcode
  else if opcode = OP_CHECKSIGADD then op_checksigadd env
  else if opcode = OP_CHECKMULTISIG ∨ opcode = OP_CHECKMULTISIGVERIFY then op_checkmultisig env opcode
  else eval_plain opcode

def count_opcode (env : Env) (opcode : UInt8) : Run Unit :=
  if env.pre_tapscript ∧ OP_16 < opcode then count_ops 1 else pure ()

def check_banned (env : Env) (opcode : UInt8) : Run Unit :=
  if opcode ∈ DISABLED then fail .DisabledOpcode
  else if opcode = OP_CODESEPARATOR ∧ env.sigversion = .Base ∧ env.has CONST_SCRIPTCODE then fail .OpCodeSeparator
  else pure ()

def check_minimal_data (env : Env) (data : Element) (opcode : UInt8) : Run Unit :=
  if env.has MINIMALDATA ∧ !check_minimal_push data opcode then fail .MinimalData else pure ()

def execute [Digests] (env : Env) (opcode : UInt8) (data : Element) (f_exec : Bool) : Run Unit :=
  if f_exec ∧ opcode ≤ OP_PUSHDATA4 then do
    check_minimal_data env data opcode
    push data
  else if f_exec ∨ OP_IF ≤ opcode ∧ opcode ≤ OP_ENDIF then eval_op env opcode f_exec
  else pure ()

def check_stack_size : Run Unit := do
  let m ← Exec.get
  if MAX_STACK_SIZE < m.stack.length + m.altstack.length then fail .StackSize else pure ()

def next_opcode : Run Unit := do
  let m ← Exec.get
  if 2 ^ 32 ≤ m.opcode_pos + 1 then panics else Exec.modify fun m => { m with opcode_pos := m.opcode_pos + 1 }

def eval_step [Digests] (env : Env) : Run Unit := do
  let m ← Exec.get
  match get_op env.script m.pc with
  | (none, _) => fail .BadOpcode
  | (some (opcode, data), pc) =>
    if MAX_SCRIPT_ELEMENT_SIZE < data.length then fail .PushSize
    else do
      Exec.modify fun m => { m with pc }
      count_opcode env opcode
      check_banned env opcode
      execute env opcode data m.cond.all_true
      check_stack_size
      next_opcode

def eval_loop [Digests] (env : Env) : ℕ → Run Unit
  | 0 => pure ()
  | fuel + 1 => do
    let m ← Exec.get
    if m.pc < env.script.length then do
      eval_step env
      eval_loop env fuel
    else pure ()

def check_balanced : Run Unit := do
  let m ← Exec.get
  if !m.cond.is_empty then fail .UnbalancedConditional else pure ()

def eval_machine [Digests] (env : Env) : Run Unit :=
  if env.pre_tapscript ∧ MAX_SCRIPT_SIZE < env.script.length then fail .ScriptSize
  else do
    eval_loop env env.script.length
    check_balanced

def Machine.start (stack : List Element) (execdata : ExecutionData) : Machine :=
  ⟨stack, [], .empty, 0, 0, { execdata with codeseparator_pos := 0xFFFFFFFF, codeseparator_pos_init := true }, 0, 0⟩

abbrev Verify (α : Type) : Type := Exec Answer Unit Halt α

def eval_script [Digests] (stack : List Element) (env : Env) (execdata : ExecutionData) : Verify (List Element) := do
  let m ← Exec.within (Machine.start stack execdata) (eval_machine env)
  pure m.stack

def TAPLEAF : List UInt8 := [0x54, 0x61, 0x70, 0x4c, 0x65, 0x61, 0x66]

def compute_tapleaf_hash [Digests] (leaf_version : UInt8) (script : Script) : List UInt8 :=
  let tag := sha256 TAPLEAF
  sha256 (tag ++ tag ++ [leaf_version] ++ write_compact_size script.length ++ script)

def witness_serialized_size (items : List Element) : ℕ :=
  compact_size_len items.length + (items.map fun i => compact_size_len i.length + i.length).sum

/-- Whether an `OP_SUCCESSx` comes before any instruction that is cut short: `none` where neither comes. -/
def find_op_success (script : Script) : ℕ → ℕ → Option Bool
  | 0, _ => none
  | fuel + 1, pc =>
    if pc < script.length then
      match get_op script pc with
      | (none, _) => some false
      | (some (opcode, _), next) => if is_op_success opcode then some true else find_op_success script fuel next
    else none

def check_op_success (flags : ScriptFlags) : Verify Unit :=
  if contains flags DISCOURAGE_OP_SUCCESS then fail .DiscourageOpSuccess else pure ()

def execute_witness_stack [Digests] (stack : List Element) (env : Env) (execdata : ExecutionData) : Verify Unit :=
  if env.sigversion = .Tapscript ∧ MAX_STACK_SIZE < stack.length then fail .StackSize
  else if stack.any fun elem => decide (MAX_SCRIPT_ELEMENT_SIZE < elem.length) then fail .PushSize
  else do
    let stack ← eval_script stack env execdata
    match stack with
    | [] => fail .CleanStack
    | elem :: rest =>
      if rest.length ≠ 0 then fail .CleanStack
      else if !cast_to_bool elem then fail .EvalFalse
      else pure ()

def execute_witness_script [Digests] (stack_items : List Element) (exec_script : Script) (flags : ScriptFlags)
    (sigversion : SigVersion) (execdata : ExecutionData) : Verify Unit :=
  match if sigversion = .Tapscript then find_op_success exec_script exec_script.length 0 else none with
  | some false => fail .BadOpcode
  | some true => check_op_success flags
  | none => execute_witness_stack stack_items ⟨exec_script, flags, sigversion⟩ execdata

def check_taproot_version (flags : ScriptFlags) : Verify Unit :=
  if contains flags DISCOURAGE_UPGRADABLE_TAPROOT_VERSION then fail .DiscourageUpgradableTaprootVersion else pure ()

def check_witness_version (flags : ScriptFlags) : Verify Unit :=
  if contains flags DISCOURAGE_UPGRADABLE_WITNESS_PROGRAM then fail .DiscourageUpgradableWitnessProgram else pure ()

def split_annex (stack : List Element) : Option Element × List Element :=
  match stack with
  | annex :: item :: rest => if annex.head? = some ANNEX_TAG then (some annex, item :: rest) else (none, stack)
  | _ => (none, stack)

def annex_data [Digests] (annex : Option Element) : ExecutionData :=
  match annex with
  | some annex =>
    { ExecutionData.default with
      annex_hash := some (sha256 (write_compact_size annex.length ++ annex)), annex_present := true, annex_init :=
        true }
  | none => { ExecutionData.default with annex_init := true }

def verify_script_path [Digests] (witness stack : List Element) (control : Element) (script : Script)
    (program : List UInt8) (flags : ScriptFlags) (execdata : ExecutionData) : Verify Unit :=
  if control.length < TAPROOT_CONTROL_BASE_SIZE ∨ TAPROOT_CONTROL_MAX_SIZE < control.length
      ∨ ¬TAPROOT_CONTROL_NODE_SIZE ∣ control.length - TAPROOT_CONTROL_BASE_SIZE then
    fail .TaprootWrongControlSize
  else do
    let leaf_version := control.getD 0 0 &&& TAPROOT_LEAF_MASK
    let tapleaf_hash := compute_tapleaf_hash leaf_version script
    let committed ← Exec.ask (.verify_taproot_commitment control program tapleaf_hash)
    if !committed then fail .WitnessProgramMismatch
    else if leaf_version = TAPROOT_LEAF_TAPSCRIPT then
      execute_witness_script stack script flags .Tapscript
        { execdata with
          tapleaf_hash := some tapleaf_hash, tapleaf_hash_init := true,
          validation_weight_left := witness_serialized_size witness + VALIDATION_WEIGHT_OFFSET,
          validation_weight_left_init := true }
    else check_taproot_version flags

def verify_taproot [Digests] (witness : List Element) (program : List UInt8) (flags : ScriptFlags) : Verify Unit :=
  if !contains flags TAPROOT then pure ()
  else
    match split_annex witness with
    | (_, []) => fail .WitnessProgramWitnessEmpty
    | (annex, [sig]) => do
      let answer ← Exec.ask (Query.check_schnorr_signature sig program .Taproot (annex_data annex))
      attempt answer.1
    | (annex, control :: script :: stack) =>
      verify_script_path witness stack control script program flags (annex_data annex)

def verify_witness_program [Digests] (witness : List Element) (witversion : UInt8) (program : List UInt8)
    (flags : ScriptFlags) (is_p2sh : Bool) : Verify Unit :=
  if witversion = 0 then
    if program.length = WITNESS_V0_SCRIPTHASH_SIZE then
      match witness with
      | [] => fail .WitnessProgramWitnessEmpty
      | script :: rest =>
        if sha256 script ≠ program then fail .WitnessProgramMismatch
        else execute_witness_script rest script flags .WitnessV0 .default
    else if program.length = WITNESS_V0_KEYHASH_SIZE then
      if witness.length ≠ 2 then fail .WitnessProgramMismatch
      else
        execute_witness_script witness ([OP_DUP, OP_HASH160, 0x14] ++ program ++ [OP_EQUALVERIFY, OP_CHECKSIG]) flags
          .WitnessV0 .default
    else fail .WitnessProgramWrongLength
  else if witversion = 1 ∧ program.length = WITNESS_V1_TAPROOT_SIZE ∧
    !is_p2sh then verify_taproot witness program flags
  else if !is_p2sh ∧ is_pay_to_anchor witversion program then pure ()
  else check_witness_version flags

def check_top (stack : List Element) : Verify Unit :=
  match stack with
  | [] => fail .EvalFalse
  | elem :: _ => if cast_to_bool elem then pure () else fail .EvalFalse

def check_push_only (flags : ScriptFlags) (script_sig : Script) : Verify Unit :=
  if contains flags SIGPUSHONLY ∧ !is_push_only script_sig then fail .SigPushOnly else pure ()

def eval_base [Digests] (stack : List Element) (script : Script) (flags : ScriptFlags) : Verify (List Element) :=
  eval_script stack ⟨script, flags, .Base⟩ .default

def verify_program [Digests] (witness stack : List Element) (script script_sig expected : Script) (e : ScriptError)
    (flags : ScriptFlags) (is_p2sh : Bool) : Verify (Bool × List Element) :=
  match if contains flags WITNESS then witness_program script else none with
  | none => pure (false, stack)
  | some (witversion, program) =>
    if script_sig ≠ expected then fail e
    else do
      verify_witness_program witness witversion program flags is_p2sh
      -- `truncate(1)` keeps the bottom
      pure (true, stack.drop (stack.length - 1))

/-- The redeem script on top of the stack that `script_sig` left. -/
def verify_p2sh [Digests] (witness stack : List Element) (script_sig : Script) (flags : ScriptFlags)
    (had_witness : Bool) : Verify (Bool × List Element) :=
  if !is_push_only script_sig then fail .SigPushOnly
  else do
    let serialized := stack.headD []
    let stack ← eval_base stack.tail serialized flags
    check_top stack
    let wrapped ←
      verify_program witness stack serialized script_sig (push_slice serialized) .WitnessMalleatedP2sh flags true
    pure (had_witness || wrapped.1, wrapped.2)

def verify_if_p2sh [Digests] (witness stack : List Element) (script_sig script_pubkey : Script) (flags : ScriptFlags)
    (bare : Bool × List Element) : Verify (Bool × List Element) :=
  if contains flags P2SH ∧ is_p2sh script_pubkey then verify_p2sh witness stack script_sig flags bare.1 else pure bare

def check_clean_stack (flags : ScriptFlags) (stack : List Element) : Verify Unit :=
  if contains flags CLEANSTACK ∧ stack.length ≠ 1 then fail .CleanStack else pure ()

def check_witness_used (flags : ScriptFlags) (had_witness : Bool) (witness : List Element) : Verify Unit :=
  if contains flags WITNESS ∧ !had_witness ∧ !witness.isEmpty then fail .WitnessUnexpected else pure ()

/-- `witness` top first, and empty where the input has none. -/
def verify_script [Digests] (script_sig script_pubkey : Script) (witness : List Element) (flags : ScriptFlags) :
    Verify Unit := do
  check_push_only flags script_sig
  let stack_copy ← eval_base [] script_sig flags
  let stack ← eval_base stack_copy script_pubkey flags
  check_top stack
  let bare ← verify_program witness stack script_pubkey script_sig [] .WitnessMalleated flags false
  let ended ← verify_if_p2sh witness stack_copy script_sig script_pubkey flags bare
  check_clean_stack flags ended.2
  check_witness_used flags ended.1 witness

end AvilaNode.Interpreter
