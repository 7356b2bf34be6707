import AvilaNode.MiniscriptTypes
import AvilaNode.ScriptBranches
import AvilaNode.SignatureEffects

/-! Miniscript nodes: their types and the scripts they emit. -/

namespace AvilaNode.Miniscript

open Interpreter

structure ScriptCtx where
  to_pk_bytes : ℕ → List UInt8
  to_pkh_bytes : ℕ → List UInt8
  pk_fits : ∀ key, (to_pk_bytes key).length < 4294967296
  pkh_fits : ∀ key, (to_pkh_bytes key).length < 4294967296

def build_num (n : ℕ) : List UInt8 :=
  if n = 0 then [OP_0]
  else if n ≤ 16 then [OP_1 + UInt8.ofNat n - 1]
  else
    let bytes := le_bytes 4 n
    push_slice (if bytes.getLastD 0 &&& 0x80 ≠ 0 then bytes ++ [0] else bytes)

inductive Node where
  | mk (fragment : Fragment) (k : ℕ) (keys : List ℕ) (data : List UInt8) (subs : List Node)

def calc_type (fragment : Fragment) (types : List MsType) (k : ℕ) (ctx : MsContext) : MsType :=
  let sub_types := if fragment = .Thresh then types else []
  sanitize_type (compute_type fragment (types.getD 0 .empty) (types.getD 1 .empty) (types.getD 2 .empty) sub_types k
    types.length ctx)

def downfn (verify : Bool) (fragment : Fragment) (index : ℕ) : Bool :=
  if fragment = .WrapV then true
  else if fragment = .WrapS ∨ fragment = .AndV ∧ index = 1 then verify
  else false

def hash_opcode (fragment : Fragment) : UInt8 :=
  match fragment with
  | .Sha256 => OP_SHA256
  | .Ripemd160 => OP_RIPEMD160
  | .Hash256 => OP_HASH256
  | _ => OP_HASH160

def upfn (sc : ScriptCtx) (verify : Bool) (fragment : Fragment) (k : ℕ) (keys : List ℕ) (data : List UInt8)
    (sub_type : MsType) (subs : List (List UInt8)) : List UInt8 :=
  let sub (i : ℕ) := subs.getD i []
  let pk (i : ℕ) := push_slice (sc.to_pk_bytes (keys.getD i 0))
  match fragment with
  | .PkK => pk 0
  | .PkH => [OP_DUP, OP_HASH160] ++ push_slice (sc.to_pkh_bytes (keys.getD 0 0)) ++ [OP_EQUALVERIFY]
  | .Older => build_num k ++ [OP_CHECKSEQUENCEVERIFY]
  | .After => build_num k ++ [OP_CHECKLOCKTIMEVERIFY]
  | .Sha256 | .Ripemd160 | .Hash256 | .Hash160 =>
    [OP_SIZE] ++ build_num 32 ++ [OP_EQUALVERIFY, hash_opcode fragment] ++ push_slice data
      ++ [if verify then OP_EQUALVERIFY else OP_EQUAL]
  | .WrapA => [OP_TOALTSTACK] ++ sub 0 ++ [OP_FROMALTSTACK]
  | .WrapS => [OP_SWAP] ++ sub 0
  | .WrapC => sub 0 ++ [if verify then OP_CHECKSIGVERIFY else OP_CHECKSIG]
  | .WrapD => [OP_DUP, OP_IF] ++ sub 0 ++ [OP_ENDIF]
  | .WrapV => sub 0 ++ (if sub_type.has_all (mst [.x]) then [OP_VERIFY] else [])
  | .WrapJ => [OP_SIZE, OP_0NOTEQUAL, OP_IF] ++ sub 0 ++ [OP_ENDIF]
  | .WrapN => sub 0 ++ [OP_0NOTEQUAL]
  | .Just1 => [OP_1]
  | .Just0 => [OP_0]
  | .AndV => sub 0 ++ sub 1
  | .AndB => sub 0 ++ sub 1 ++ [OP_BOOLAND]
  | .OrB => sub 0 ++ sub 1 ++ [OP_BOOLOR]
  | .OrC => sub 0 ++ [OP_NOTIF] ++ sub 1 ++ [OP_ENDIF]
  | .OrD => sub 0 ++ [OP_IFDUP, OP_NOTIF] ++ sub 1 ++ [OP_ENDIF]
  | .OrI => [OP_IF] ++ sub 0 ++ [OP_ELSE] ++ sub 1 ++ [OP_ENDIF]
  | .AndOr => sub 0 ++ [OP_NOTIF] ++ sub 2 ++ [OP_ELSE] ++ sub 1 ++ [OP_ENDIF]
  | .Multi =>
    build_num k ++ keys.flatMap (fun key => push_slice (sc.to_pk_bytes key)) ++ build_num keys.length
      ++ [if verify then OP_CHECKMULTISIGVERIFY else OP_CHECKMULTISIG]
  | .MultiA =>
    pk 0 ++ [OP_CHECKSIG] ++ keys.tail.flatMap (fun key => push_slice (sc.to_pk_bytes key) ++ [OP_CHECKSIGADD])
      ++ build_num k ++ [if verify then OP_NUMEQUALVERIFY else OP_NUMEQUAL]
  | .Thresh =>
    sub 0 ++ subs.tail.flatMap (· ++ [OP_ADD]) ++ build_num k ++ [if verify then OP_EQUALVERIFY else OP_EQUAL]

/-- What the grammar admits: the number of subexpressions and keys, the size of a digest, and the range of `k`. -/
def Admitted (fragment : Fragment) (k n_keys data_size n_subs : ℕ) : Prop :=
  match fragment with
  | .Just0 | .Just1 => n_subs = 0
  | .PkK | .PkH => n_keys = 1 ∧ n_subs = 0
  | .Older | .After => 1 ≤ k ∧ k < 2147483648 ∧ n_subs = 0
  | .Sha256 | .Hash256 => data_size = 32 ∧ n_subs = 0
  | .Ripemd160 | .Hash160 => data_size = 20 ∧ n_subs = 0
  | .WrapA | .WrapS | .WrapC | .WrapD | .WrapV | .WrapJ | .WrapN => n_subs = 1
  | .AndV | .AndB | .OrB | .OrC | .OrD | .OrI => n_subs = 2
  | .AndOr => n_subs = 3
  | .Multi => 1 ≤ k ∧ k ≤ n_keys ∧ n_keys ≤ 20 ∧ n_subs = 0
  | .MultiA => 1 ≤ k ∧ k ≤ n_keys ∧ n_keys ≤ 999 ∧ n_subs = 0
  | .Thresh => 1 ≤ k ∧ k ≤ n_subs ∧ k < 4294967296

namespace Node

mutual

def typ (ctx : MsContext) : Node → MsType
  | mk fragment k _ _ subs => calc_type fragment (types ctx subs) k ctx

def types (ctx : MsContext) : List Node → List MsType
  | [] => []
  | sub :: subs => typ ctx sub :: types ctx subs

end

mutual

def script (sc : ScriptCtx) (ctx : MsContext) (verify : Bool) : Node → List UInt8
  | mk fragment k keys data subs =>
    upfn sc verify fragment k keys data ((types ctx subs).getD 0 .empty) (scripts sc ctx verify fragment 0 subs)

def scripts (sc : ScriptCtx) (ctx : MsContext) (verify : Bool) (fragment : Fragment) :
    ℕ → List Node → List (List UInt8)
  | _, [] => []
  | index, sub :: subs =>
    script sc ctx (downfn verify fragment index) sub :: scripts sc ctx verify fragment (index + 1) subs

end

def to_script (sc : ScriptCtx) (ctx : MsContext) (node : Node) : List UInt8 := script sc ctx false node

mutual

def Formed : Node → Prop
  | mk fragment k keys data subs => Admitted fragment k keys.length data.length subs.length ∧ AllFormed subs

def AllFormed : List Node → Prop
  | [] => True
  | sub :: subs => Formed sub ∧ AllFormed subs

end

theorem induct {P : Node → Prop}
    (h : ∀ fragment k keys data subs, (∀ sub ∈ subs, P sub) → P (mk fragment k keys data subs)) (node : Node) :
    P node := by
  refine @Node.rec P (fun subs => ∀ sub ∈ subs, P sub) ?_ ?_ ?_ node
  · exact fun fragment k keys data subs ih => h fragment k keys data subs ih
  · simp
  · intro sub subs hsub hsubs
    simpa using ⟨hsub, hsubs⟩

theorem types_eq (ctx : MsContext) (subs : List Node) : types ctx subs = subs.map (typ ctx) := by
  induction subs with
  | nil => rfl
  | cons sub subs ih => rw [types, ih, List.map_cons]

theorem allFormed_iff (subs : List Node) : AllFormed subs ↔ ∀ sub ∈ subs, Formed sub := by
  induction subs with
  | nil => simp [AllFormed]
  | cons sub subs ih => simp [AllFormed, ih]

end Node

end AvilaNode.Miniscript

namespace AvilaNode.Miniscript

open Interpreter OraclePrograms Effect

variable [Digests]

def holds (answer : (q : Query) → Answer q) (env : Env) (sc : ScriptCtx) (fragment : Fragment) (k : ℕ) (keys : List ℕ)
    (data : List UInt8) (subs : List Prop) : Prop :=
  let sub (i : ℕ) := subs.getD i False
  match fragment with
  | .Just0 => False
  | .Just1 => True
  | .PkK => Signed answer env (sc.to_pk_bytes (keys.getD 0 0))
  | .PkH => ∃ pubkey, digest OP_HASH160 pubkey = sc.to_pkh_bytes (keys.getD 0 0) ∧ Signed answer env pubkey
  | .Older => env.has CHECKSEQUENCEVERIFY = true → answer (.check_sequence k) = true
  | .After => env.has CHECKLOCKTIMEVERIFY = true → answer (.check_locktime k) = true
  | .Sha256 | .Ripemd160 | .Hash256 | .Hash160 => ∃ preimage : Element, preimage.length = 32 ∧
      digest (hash_opcode fragment) preimage = data
  | .WrapA | .WrapS | .WrapC | .WrapD | .WrapV | .WrapJ | .WrapN => sub 0
  | .AndV | .AndB => sub 0 ∧ sub 1
  | .OrB | .OrC | .OrD | .OrI => sub 0 ∨ sub 1
  | .AndOr => sub 0 ∧ sub 1 ∨ sub 2
  | .Multi | .MultiA => ∃ chosen : List Element, chosen.Sublist (keys.map sc.to_pk_bytes) ∧ chosen.length = k ∧
      ∀ pubkey ∈ chosen, Signed answer env pubkey
  | .Thresh => ∃ chosen : List Prop, chosen.Sublist subs ∧ chosen.length = k ∧ ∀ p ∈ chosen, p

namespace Node

variable (answer : (q : Query) → Answer q) (env : Env) (sc : ScriptCtx)

mutual

def Satisfied : Node → Prop
  | mk fragment k keys data subs => holds answer env sc fragment k keys data (policies subs)

def policies : List Node → List Prop
  | [] => []
  | sub :: subs => Satisfied sub :: policies subs

end

end Node

/-- Elements are taken from the top, none with `z` and one with `o`. -/
structure Takes (t : MsType) (n : ℕ) (s rest : List Element) : Prop where
  le : n ≤ s.length
  eq : rest = s.drop n
  z : t.has .z = true → n = 0
  o : t.has .o = true → n = 1

/-- A result is true in the satisfied case alone, and is then the byte 1 with `u`. -/
structure Result (t : MsType) (sat : Prop) (r : Element) : Prop where
  sat : cast_to_bool r = true → sat
  u : t.has .u = true → cast_to_bool r = true → r = [1]

def ShapeB (t : MsType) (sat : Prop) (s s' : List Element) : Prop :=
  ∃ n rest r, Takes t n s rest ∧ Result t sat r ∧ s' = r :: rest

def ShapeV (t : MsType) (sat : Prop) (s s' : List Element) : Prop := ∃ n, Takes t n s s' ∧ sat

/-- One key in place of the arguments; with `o` nothing is taken yet, as the signature is what it counts. -/
def ShapeK (answer : (q : Query) → Answer q) (env : Env) (t : MsType) (sat : Prop) (s s' : List Element) : Prop :=
  ∃ n pubkey, n ≤ s.length ∧ s' = pubkey :: s.drop n ∧ (t.has .o = true → n = 0) ∧ t.has .z = false ∧
    (Signed answer env pubkey → sat)

def ShapeW (t : MsType) (sat : Prop) (s s' : List Element) : Prop :=
  ∃ top below n rest r, s = top :: below ∧ Takes t n below rest ∧ Result t sat r ∧
    (s' = top :: r :: rest ∨ s' = r :: top :: rest)

structure Part where
  typ : MsType
  script : Bool → List UInt8
  sat : Prop

structure Sound (answer : (q : Query) → Answer q) (env : Env) (p : Part) : Prop where
  b : p.typ.has .B = true → Codes answer env (p.script false) (on_stack (ShapeB p.typ p.sat))
  v : p.typ.has .V = true → Codes answer env (p.script false) (on_stack (ShapeV p.typ p.sat))
  k : p.typ.has .K = true → Codes answer env (p.script false) (on_stack (ShapeK answer env p.typ p.sat))
  w : p.typ.has .W = true → Codes answer env (p.script false) (on_stack (ShapeW p.typ p.sat))
  same : p.typ.has .B = true → p.typ.has .x = true → p.script true = p.script false
  fused : p.typ.has .B = true → p.typ.has .x = false →
    Codes answer env (p.script true) (on_stack (ShapeV p.typ p.sat))

def combine (answer : (q : Query) → Answer q) (env : Env) (sc : ScriptCtx) (ctx : MsContext) (fragment : Fragment)
    (k : ℕ) (keys : List ℕ) (data : List UInt8) (parts : List Part) : Part where
  typ := calc_type fragment (parts.map Part.typ) k ctx
  script verify := upfn sc verify fragment k keys data ((parts.map Part.typ).getD 0 .empty)
    (parts.zipIdx.map fun p => p.1.script (downfn verify fragment p.2))
  sat := holds answer env sc fragment k keys data (parts.map Part.sat)

def Node.part (answer : (q : Query) → Answer q) (env : Env) (sc : ScriptCtx) (ctx : MsContext) (node : Node) :
    Part where
  typ := node.typ ctx
  script verify := node.script sc ctx verify
  sat := node.Satisfied answer env sc

theorem Node.part_mk (answer : (q : Query) → Answer q) (env : Env) (sc : ScriptCtx) (ctx : MsContext)
    (fragment : Fragment) (k : ℕ) (keys : List ℕ) (data : List UInt8) (subs : List Node) :
    (Node.mk fragment k keys data subs).part answer env sc ctx =
      combine answer env sc ctx fragment k keys data (subs.map (Node.part answer env sc ctx)) := by
  have htyp : types ctx subs = (subs.map (part answer env sc ctx)).map Part.typ := by
    rw [types_eq, List.map_map]
    rfl
  have hsat : policies answer env sc subs = (subs.map (part answer env sc ctx)).map Part.sat := by
    induction subs with
    | nil => rfl
    | cons sub subs ih => simpa [policies, types, part] using ih (by simp [types_eq, part])
  have hscript (verify : Bool) (i : ℕ) (subs : List Node) : scripts sc ctx verify fragment i subs =
      ((subs.map (part answer env sc ctx)).zipIdx i).map fun p => p.1.script (downfn verify fragment p.2) := by
    induction subs generalizing i with
    | nil => rfl
    | cons sub subs ih => rw [scripts, ih, List.map_cons, List.zipIdx_cons, List.map_cons]; rfl
  simp only [part, combine, typ, script, Satisfied, htyp, hsat, hscript]

end AvilaNode.Miniscript
