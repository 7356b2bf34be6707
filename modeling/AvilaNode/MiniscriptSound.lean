import AvilaNode.FlagsMonotone
import AvilaNode.MiniscriptJoins
import AvilaNode.MiniscriptThresh

/-! A run of the script of a miniscript node leaves what the type of the node promises. -/

namespace AvilaNode.Miniscript

open Interpreter OraclePrograms Effect

def sigversion (ctx : MsContext) : SigVersion :=
  match ctx with
  | .P2wsh => .WitnessV0
  | .Tapscript => .Tapscript

theorem sigversion_cases (ctx : MsContext) :
    sigversion ctx = .WitnessV0 ∨ sigversion ctx = .Tapscript := by cases ctx <;> simp [sigversion]

section Soundness

variable [Digests] {answer : (q : Query) → Answer q} {env : Env} {sc : ScriptCtx} {ctx : MsContext}

theorem sound_combine (henv : env.sigversion = sigversion ctx) {fragment : Fragment} {k : ℕ} {keys : List ℕ}
    {data : List UInt8} {parts : List Part}
    (hadmitted : Admitted fragment k keys.length data.length parts.length)
    (hparts : ∀ p ∈ parts, Sound answer env p) :
    Sound answer env (combine answer env sc ctx fragment k keys data parts) := by
  have hv : env.sigversion = .WitnessV0 ∨ env.sigversion = .Tapscript := henv ▸ sigversion_cases ctx
  have hb : env.sigversion ≠ .Base := by rcases hv with hv | hv <;> simp [hv]
  have hctx : is_tapscript ctx = true → env.sigversion = .Tapscript := by
    rw [henv]
    cases ctx <;> simp [is_tapscript, sigversion]
  have hnone (h : parts.length = 0) : parts = [] := List.length_eq_zero_iff.mp h
  have hone (h : parts.length = 1) : ∃ x, parts = [x] ∧ Sound answer env x := by
    obtain ⟨x, rfl⟩ := List.length_eq_one_iff.mp h
    exact ⟨x, rfl, hparts x (by simp)⟩
  have htwo (h : parts.length = 2) : ∃ x y, parts = [x, y] ∧ Sound answer env x ∧ Sound answer env y := by
    obtain ⟨x, y, rfl⟩ := List.length_eq_two.mp h
    exact ⟨x, y, rfl, hparts x (by simp), hparts y (by simp)⟩
  cases fragment with
  | Just0 => obtain rfl := hnone hadmitted; exact sound_just0
  | Just1 => obtain rfl := hnone hadmitted; exact sound_just1
  | PkK => obtain rfl := hnone hadmitted.2; exact sound_pk_k
  | PkH => obtain rfl := hnone hadmitted.2; exact sound_pk_h
  | Older => obtain rfl := hnone hadmitted.2.2; exact sound_older hadmitted.2.1
  | After => obtain rfl := hnone hadmitted.2.2; exact sound_after hadmitted.2.1
  | Sha256 => obtain rfl := hnone hadmitted.2; exact sound_hash (by simp) (by rw [hadmitted.1]; decide)
  | Ripemd160 => obtain rfl := hnone hadmitted.2; exact sound_hash (by simp) (by rw [hadmitted.1]; decide)
  | Hash256 => obtain rfl := hnone hadmitted.2; exact sound_hash (by simp) (by rw [hadmitted.1]; decide)
  | Hash160 => obtain rfl := hnone hadmitted.2; exact sound_hash (by simp) (by rw [hadmitted.1]; decide)
  | WrapA => obtain ⟨x, rfl, hx⟩ := hone hadmitted; exact sound_wrap_a hx
  | WrapS => obtain ⟨x, rfl, hx⟩ := hone hadmitted; exact sound_wrap_s hx
  | WrapC => obtain ⟨x, rfl, hx⟩ := hone hadmitted; exact sound_wrap_c hb hx
  | WrapD => obtain ⟨x, rfl, hx⟩ := hone hadmitted; exact sound_wrap_d hctx hx
  | WrapV => obtain ⟨x, rfl, hx⟩ := hone hadmitted; exact sound_wrap_v hx
  | WrapJ => obtain ⟨x, rfl, hx⟩ := hone hadmitted; exact sound_wrap_j hx
  | WrapN => obtain ⟨x, rfl, hx⟩ := hone hadmitted; exact sound_wrap_n hx
  | AndV => obtain ⟨x, y, rfl, hx, hy⟩ := htwo hadmitted; exact sound_and_v hx hy
  | AndB => obtain ⟨x, y, rfl, hx, hy⟩ := htwo hadmitted; exact sound_and_b hx hy
  | OrB => obtain ⟨x, y, rfl, hx, hy⟩ := htwo hadmitted; exact sound_or_b hx hy
  | OrC => obtain ⟨x, y, rfl, hx, hy⟩ := htwo hadmitted; exact sound_or_c hx hy
  | OrD => obtain ⟨x, y, rfl, hx, hy⟩ := htwo hadmitted; exact sound_or_d hx hy
  | OrI => obtain ⟨x, y, rfl, hx, hy⟩ := htwo hadmitted; exact sound_or_i hx hy
  | AndOr =>
    obtain ⟨x, y, z, rfl⟩ := List.length_eq_three.mp hadmitted
    exact sound_and_or (hparts x (by simp)) (hparts y (by simp)) (hparts z (by simp))
  | Multi => obtain rfl := hnone hadmitted.2.2.2; exact sound_multi hv hadmitted.2.1 hadmitted.2.2.1
  | MultiA =>
    obtain rfl := hnone hadmitted.2.2.2
    exact sound_multi_a hb hadmitted.2.1 hadmitted.1 hadmitted.2.2.1
  | Thresh => exact sound_thresh hparts hadmitted.1 hadmitted.2.2 hadmitted.2.1

theorem sound_node (henv : env.sigversion = sigversion ctx) (node : Node) (h : node.Formed) :
    Sound answer env (node.part answer env sc ctx) := by
  induction node using Node.induct with
  | h fragment k keys data subs ih =>
    rw [Node.Formed, Node.allFormed_iff] at h
    rw [Node.part_mk]
    refine sound_combine henv (by simpa using h.1) fun p hp => ?_
    obtain ⟨sub, hsub, rfl⟩ := List.mem_map.mp hp
    exact ih sub hsub (h.2 sub hsub)

theorem Codes.run {f : List Element → List Element → Prop} {stack final : List Element} {execdata : ExecutionData}
    (hc : Codes answer env env.script (on_stack f))
    (h : Exec.eval answer (eval_script stack env execdata) () = .ok (final, ())) : f stack final := by
  simp only [eval_script, Exec.eval_bind_eq_ok, Exec.eval_pure, Except.ok.injEq, Prod.mk.injEq] at h
  obtain ⟨⟨m, u⟩, hrun, rfl, -⟩ := h
  rw [Exec.eval_within] at hrun
  unfold eval_machine at hrun
  split at hrun
  · next r hr =>
    obtain ⟨rfl, -⟩ : r = m ∧ () = u := by simpa using hrun
    split at hr
    · simp at hr
    simp only [Exec.eval_bind_eq_ok] at hr
    obtain ⟨⟨_, m₁⟩, hloop, hbalanced⟩ := hr
    have hm : r = m₁ := by
      simp only [check_balanced, Exec.eval_bind_eq_ok, eval_get, Except.ok.injEq, exists_eq_left'] at hbalanced
      split at hbalanced
      · simp at hbalanced
      · simpa [eq_comm] using hbalanced
    subst hm
    have hends : Ends answer env (env.script ++ []) (Machine.start stack execdata) r :=
      ⟨by simp [Machine.start], env.script.length, by simp, hloop⟩
    obtain ⟨m₂, hdoes, hend⟩ := hc [] _ _ hends
    have hlive : Live (Machine.start stack execdata) := ⟨rfl, Nat.zero_le _, rfl⟩
    rw [hend.nil]
    exact (hdoes.live hlive).2.2
  · cases hrun

structure Promised (answer : (q : Query) → Answer q) (env : Env) (t : MsType) (sat : Prop) (s s' : List Element) :
    Prop where
  base : t.has .B = true ∨ t.has .V = true ∨ t.has .K = true ∨ t.has .W = true
  b : t.has .B = true → ShapeB t sat s s'
  v : t.has .V = true → ShapeV t sat s s'
  k : t.has .K = true → ShapeK answer env t sat s s'
  w : t.has .W = true → ShapeW t sat s s'

theorem promise_kept (answer : (q : Query) → Answer q) (sc : ScriptCtx) (ctx : MsContext) (node : Node)
    (hformed : node.Formed) (hvalid : node.typ ctx ≠ .empty) (flags : ScriptFlags) (execdata : ExecutionData)
    (stack final : List Element)
    (h : Exec.eval answer (eval_script stack ⟨node.to_script sc ctx, flags, sigversion ctx⟩ execdata) () =
      .ok (final, ())) :
    Promised answer ⟨node.to_script sc ctx, flags, sigversion ctx⟩ (node.typ ctx)
      (node.Satisfied answer ⟨node.to_script sc ctx, flags, sigversion ctx⟩ sc) stack final := by
  have hsound : Sound answer ⟨node.to_script sc ctx, flags, sigversion ctx⟩
    (node.part answer ⟨node.to_script sc ctx, flags, sigversion ctx⟩ sc ctx) := sound_node rfl node hformed
  refine ⟨?_, fun hB => Codes.run (hsound.b hB) h, fun hV => Codes.run (hsound.v hV) h,
    fun hK => Codes.run (hsound.k hK) h, fun hW => Codes.run (hsound.w hW) h⟩
  obtain ⟨fragment, k, keys, data, subs⟩ := node
  exact base_of_sanitize hvalid

end Soundness

section Sample

attribute [local instance] Digests.identity

def plain_keys : ScriptCtx where
  to_pk_bytes key := List.replicate 33 (UInt8.ofNat key)
  to_pkh_bytes key := List.replicate 20 (UInt8.ofNat key)
  pk_fits _ := by simp
  pkh_fits _ := by simp

def bare_key : Node := .mk .PkK 0 [2] [] []

def checked_key : Node := .mk .WrapC 0 [] [] [bare_key]

theorem checked_key_formed : checked_key.Formed := ⟨rfl, ⟨⟨rfl, rfl⟩, trivial⟩, trivial⟩

theorem promise_kept_checked_key : checked_key.Formed ∧ Promised accepting
    ⟨checked_key.to_script plain_keys .P2wsh, 0, .WitnessV0⟩ (checked_key.typ .P2wsh)
    (checked_key.Satisfied accepting ⟨checked_key.to_script plain_keys .P2wsh, 0, .WitnessV0⟩ plain_keys)
    [[0x30], [7]] [[1], [7]] :=
  ⟨checked_key_formed, promise_kept accepting plain_keys .P2wsh checked_key checked_key_formed (by decide) 0 .default
    [[0x30], [7]] [[1], [7]] rfl⟩

theorem bare_key_takes_nothing : bare_key.Formed ∧ (bare_key.typ .P2wsh).has .K = true ∧
    (bare_key.typ .P2wsh).has .o = true ∧ (bare_key.typ .P2wsh).has .u = true ∧
    Exec.eval accepting (eval_script [[7]] ⟨bare_key.to_script plain_keys .P2wsh, 0, .WitnessV0⟩ .default) () =
      .ok ([List.replicate 33 2, [7]], ()) ∧
    (¬∃ pubkey, [List.replicate 33 2, [7]] = pubkey :: [([7] : Element)].drop 1) ∧
    cast_to_bool (List.replicate 33 2) = true ∧ List.replicate 33 2 ≠ ([1] : Element) := by
  refine ⟨⟨⟨rfl, rfl⟩, trivial⟩, by decide, by decide, by decide, rfl, ?_, by decide, by decide⟩
  rintro ⟨pubkey, h⟩
  simp at h

end Sample

end AvilaNode.Miniscript
