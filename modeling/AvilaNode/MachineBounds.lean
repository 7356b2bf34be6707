import AvilaNode.Interpreter
import AvilaNode.OracleTriples
import AvilaNode.ScriptNumbers

/-! What the script machine keeps within bounds: its stacks, its counters and its place in the script. -/

namespace AvilaNode.Interpreter

open OraclePrograms Exec

def Lawful (q : Query) : Answer q → Prop :=
  match q with
  | .check_schnorr_signature _ _ _ _ => fun answer =>
    I64_MIN + VALIDATION_WEIGHT_PER_SIGOP_PASSED ≤ answer.2.validation_weight_left ∧
      answer.2.validation_weight_left ≤ I64_MAX
  | _ => fun _ => True

structure Digests.Sized [Digests] : Prop where
  sha256 : ∀ v, (sha256 v).length = 32
  ripemd160 : ∀ v, (ripemd160 v).length = 20
  sha1 : ∀ v, (sha1 v).length = 20

def Small (v : Element) : Prop := v.length ≤ MAX_SCRIPT_ELEMENT_SIZE

/-- What every turn of the loop finds; `conds` bounds the conditions from above, `depth` the stack from below. -/
structure Bounded (env : Env) (conds depth : ℕ) (m : Machine) : Prop where
  deep : depth ≤ m.stack.length
  small : ∀ v ∈ m.stack, Small v
  small_alt : ∀ v ∈ m.altstack, Small v
  ops_nonneg : 0 ≤ m.op_count
  ops_le : m.op_count ≤ MAX_OPS_PER_SCRIPT
  code : m.pbegincodehash ≤ env.script.length
  weight_ge : I64_MIN + VALIDATION_WEIGHT_PER_SIGOP_PASSED ≤ m.execdata.validation_weight_left
  weight_le : m.execdata.validation_weight_left ≤ I64_MAX
  conds : m.cond.size ≤ conds

structure Kept (safe : Prop) (env : Env) (pc pos conds depth : ℕ) (m : Machine) : Prop where
  at_pc : m.pc = pc
  at_pos : m.opcode_pos = pos
  bounded : safe → Bounded env conds depth m

def Admits (safe : Prop) (q : Query) (answer : Answer q) : Prop := safe → Lawful q answer

def Halts (safe : Prop) (h : Halt) : Prop := safe → h ≠ .panic

variable {m : Machine} {stack : List Element}

theorem Bounded.mono {env : Env} {conds conds' depth depth' : ℕ} (h : Bounded env conds depth m) (hc : conds ≤ conds')
    (hd : depth' ≤ depth) : Bounded env conds' depth' m :=
  { h with deep := hd.trans h.deep, conds := h.conds.trans hc }

theorem Bounded.of_stack {env : Env} {conds depth depth' : ℕ} (h : Bounded env conds depth m)
    (hdeep : depth' ≤ stack.length) (hsmall : ∀ v ∈ stack, Small v) :
    Bounded env conds depth' { m with stack } :=
  { h with deep := hdeep, small := hsmall }

def Keeps (safe : Prop) (env : Env) (pc pos conds depth depth' : ℕ) {α : Type} (f : Run α) (fact : α → Prop) : Prop :=
  Triple (Admits safe) (Halts safe) (Kept safe env pc pos conds depth) f fun a m =>
    fact a ∧ Kept safe env pc pos conds depth' m

section

variable {safe : Prop} {env : Env} {pc pos conds depth d d' : ℕ} {α β : Type} {f : Run α} {fact : α → Prop}

theorem Kept.mono {conds' depth' : ℕ} (h : Kept safe env pc pos conds depth m) (hc : conds ≤ conds')
    (hd : depth' ≤ depth) : Kept safe env pc pos conds' depth' m :=
  { h with bounded := fun hs => (h.bounded hs).mono hc hd }

theorem Kept.with_stack {depth' : ℕ} (h : Kept safe env pc pos conds depth m) (hdeep : safe → depth' ≤ stack.length)
    (hsmall : safe → ∀ v ∈ stack, Small v) :
    Kept safe env pc pos conds depth' { m with stack } where
  at_pc := h.at_pc
  at_pos := h.at_pos
  bounded := fun hs => (h.bounded hs).of_stack (hdeep hs) (hsmall hs)

namespace Keeps

variable (n : ℕ) {goal : β → Prop}

theorem bind {k : α → Run β} (hf : Keeps safe env pc pos conds depth d f fact)
    (hk : ∀ a, fact a → Keeps safe env pc pos conds d d' (k a) goal) :
    Keeps safe env pc pos conds depth d' (f >>= k) goal :=
  Triple.bind hf fun a => Triple.of_fact fun h => hk a h

theorem mono {goal : α → Prop} (hf : Keeps safe env pc pos conds depth d f fact) (hd : d' ≤ d)
    (hg : ∀ a, fact a → goal a) : Keeps safe env pc pos conds depth d' f goal :=
  Triple.weaken hf (fun _ h => h) fun a _ h => ⟨hg a h.1, h.2.mono (Nat.le_refl _) hd⟩

theorem deeper (hd : d ≤ depth) (hf : Keeps safe env pc pos conds d d' f fact) :
    Keeps safe env pc pos conds depth d' f fact :=
  Triple.weaken hf (fun _ h => h.mono (Nat.le_refl _) hd) fun _ _ h => h

theorem pure (a : α) (h : fact a) (hd : d ≤ depth) :
    Keeps safe env pc pos conds depth d (Pure.pure a : Run α) fact :=
  Triple.pure a fun _ hs => ⟨h, hs.mono (Nat.le_refl _) hd⟩

theorem done : Keeps safe env pc pos conds depth depth (Pure.pure () : Run Unit) fun _ => True :=
  pure () trivial (Nat.le_refl _)

variable (e : ScriptError)

theorem fail : Keeps safe env pc pos conds depth d (fail e : Run α) fact :=
  Triple.throw fun _ _ _ => nofun

theorem ite {p : Prop} [Decidable p] {g : Run α} (hf : p → Keeps safe env pc pos conds depth d f fact)
    (hg : ¬p → Keeps safe env pc pos conds depth d g fact) :
    Keeps safe env pc pos conds depth d (if p then f else g) fact :=
  Triple.ite hf hg

theorem attempt {x : Except ScriptError α} (h : ∀ a, x = .ok a → fact a) :
    Keeps safe env pc pos conds depth depth (attempt x : Run α) fact := by
  cases x with
  | error e => exact fail e
  | ok a => exact pure a (h a rfl) (Nat.le_refl _)

theorem ask (q : Query) :
    Keeps safe env pc pos conds depth depth (Exec.ask q : Run (Answer q)) fun answer => safe → Lawful q answer :=
  Triple.ask q

theorem get {k : Machine → Run β}
    (hk : ∀ m, Kept safe env pc pos conds depth m → Triple (Admits safe) (Halts safe) (· = m) (k m) fun a m =>
      goal a ∧ Kept safe env pc pos conds d m) :
    Keeps safe env pc pos conds depth d (Exec.get >>= k) goal := by
  refine Triple.bind Triple.get fun m => Triple.assume ?_
  rintro s ⟨rfl, hs⟩
  exact hk s hs

theorem modify {g : Machine → Machine} (h : ∀ m, Kept safe env pc pos conds depth m →
    Kept safe env pc pos conds d (g m)) :
    Keeps safe env pc pos conds depth d (Exec.modify g : Run Unit) fun _ => True :=
  Triple.modify fun m hm => ⟨trivial, h m hm⟩

theorem require :
    Keeps safe env pc pos conds depth (max n depth) (require n e) fun _ => True := by
  refine get fun m hm => Triple.ite (fun _ => Triple.throw fun _ _ _ => nofun) fun hn => Triple.pure () ?_
  rintro _ rfl
  refine ⟨trivial, hm.at_pc, hm.at_pos, fun hs => ?_⟩
  have h := hm.bounded hs
  exact { h with deep := max_le (Nat.not_lt.mp hn) h.deep }

theorem top (hn : n < depth) :
    Keeps safe env pc pos conds depth depth (top (n + 1)) fun v => safe → Small v := by
  refine get fun m hm => ?_
  simp only [Nat.add_sub_cancel]
  cases hv : m.stack[n]? with
  | none =>
    refine Triple.throw ?_
    rintro _ rfl hs
    have hlen := (hm.bounded hs).deep
    have hnone := List.getElem?_eq_none_iff.mp hv
    omega
  | some v =>
    refine Triple.pure v ?_
    rintro _ rfl
    exact ⟨fun hs => (hm.bounded hs).small v (List.mem_of_getElem? hv), hm⟩

theorem push {v : Element} (hv : safe → Small v) :
    Keeps safe env pc pos conds depth (depth + 1) (push v) fun _ => True := by
  refine modify fun m hm => hm.with_stack (fun hs => Nat.succ_le_succ (hm.bounded hs).deep) fun hs w hw => ?_
  rcases List.mem_cons.mp hw with rfl | hw
  · exact hv hs
  · exact (hm.bounded hs).small w hw

theorem pop : Keeps safe env pc pos conds depth (depth - 1) pop fun _ => True := by
  refine modify fun m hm => hm.with_stack (fun hs => ?_) fun hs w hw =>
    (hm.bounded hs).small w (List.mem_of_mem_tail hw)
  rw [List.length_tail]
  exact Nat.sub_le_sub_right (hm.bounded hs).deep 1

theorem remove (hn : n < depth) :
    Keeps safe env pc pos conds depth (depth - 1) (remove (n + 1)) fun v => safe → Small v := by
  refine (top n hn).bind fun v hv => (modify fun m hm => ?_).bind fun _ _ => pure v hv (Nat.le_refl _)
  refine hm.with_stack (fun hs => ?_) fun hs w hw => (hm.bounded hs).small w (List.mem_of_mem_eraseIdx hw)
  have hlen := (hm.bounded hs).deep
  rw [Nat.add_sub_cancel, List.length_eraseIdx_of_lt (hn.trans_le hlen)]
  omega

theorem swap (i j : ℕ) (hi : i < depth) (hj : j < depth) :
    Keeps safe env pc pos conds depth depth (swap (i + 1) (j + 1)) fun _ => True := by
  refine (top i hi).bind fun v hv => (top j hj).bind fun w hw => modify fun m hm => ?_
  refine hm.with_stack (fun hs => by simpa using (hm.bounded hs).deep) fun hs x hx => ?_
  rcases List.mem_or_eq_of_mem_set hx with hx | rfl
  · rcases List.mem_or_eq_of_mem_set hx with hx | rfl
    · exact (hm.bounded hs).small x hx
    · exact hw hs
  · exact hv hs

theorem insert {v : Element} (hn : n ≤ depth) (hv : safe → Small v) :
    Keeps safe env pc pos conds depth (depth + 1) (insert n v) fun _ => True := by
  refine get fun m hm => Triple.ite (fun hlt => Triple.throw ?_) fun _ => Triple.modify ?_
  · rintro _ rfl hs
    have hlen := (hm.bounded hs).deep
    omega
  · rintro _ rfl
    refine ⟨trivial, hm.with_stack (fun hs => ?_) fun hs w hw => ?_⟩
    · have hlen := (hm.bounded hs).deep
      rw [List.length_insertIdx, if_pos (hn.trans hlen)]
      omega
    · rcases List.eq_or_mem_of_mem_insertIdx hw with rfl | hw
      · exact hv hs
      · exact (hm.bounded hs).small w hw

theorem number (n size : ℕ) (hn : n < depth) (hsize : size ≤ 5) :
    Keeps safe env pc pos conds depth depth (number env (n + 1) size) fun k => k.natAbs < 256 ^ 5 :=
  (top n hn).bind fun _ _ => attempt fun _ hk => script_num_natAbs_lt hsize hk

theorem checked (k : ℤ) (h : safe → i64_fits k) :
    Keeps safe env pc pos conds depth depth (checked k) fun n => n = k :=
  ite (fun _ => pure k rfl (Nat.le_refl _)) fun hk => Triple.throw fun _ _ hs => absurd (h hs) hk

end Keeps

end

end AvilaNode.Interpreter
