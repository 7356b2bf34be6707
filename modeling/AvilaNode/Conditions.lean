import AvilaNode.ScriptBytes

/-! The condition stack of the script machine, which counts what it stands for: a vector of booleans. -/

namespace AvilaNode.Interpreter

open ConditionStack

inductive ConditionOp where
  | push (f : Bool)
  | pop
  | toggle_top

namespace ConditionOp

def on_stack (c : ConditionStack) : ConditionOp → Option ConditionStack
  | .push f => c.push f
  | .pop => c.pop
  | .toggle_top => c.toggle_top

/-- `none` pops or toggles an empty vector. -/
def on_vector (v : List Bool) : ConditionOp → Option (List Bool)
  | .push f => some (v ++ [f])
  | .pop => if v = [] then none else some v.dropLast
  | .toggle_top => v.getLast?.map fun top => v.dropLast ++ [!top]

end ConditionOp

structure ConditionStack.Counts (c : ConditionStack) (v : List Bool) : Prop where
  fits : v.length ≤ NO_FALSE
  size : c.size = v.length
  first_false : c.first_false = if false ∈ v then v.idxOf false else NO_FALSE

variable {c : ConditionStack} {v w : List Bool}

theorem ConditionStack.Counts.first_false_iff (h : c.Counts v) : c.first_false = NO_FALSE ↔ false ∉ v := by
  rw [h.first_false]
  split
  · next hmem => exact iff_of_false ((List.idxOf_lt_length_of_mem hmem).trans_le h.fits).ne (not_not.mpr hmem)
  · next hmem => exact iff_of_true rfl hmem

theorem ConditionStack.Counts.push (h : c.Counts v) (f : Bool) (hfit : (v ++ [f]).length ≤ NO_FALSE) :
    ∃ c', c.push f = some c' ∧ c'.Counts (v ++ [f]) := by
  have hsize : c.size ≠ NO_FALSE := by
    rw [List.length_append, List.length_singleton] at hfit
    rw [h.size]
    omega
  refine ⟨_, if_neg hsize, hfit, ?_, ?_⟩
  · rw [List.length_append, h.size, List.length_singleton]
  · simp only [h.first_false_iff, List.idxOf_append]
    by_cases hmem : false ∈ v
    · simp [hmem, h.first_false]
    · cases f <;> simp [hmem, h.size, h.first_false]

theorem ConditionStack.Counts.pop {f : Bool} (h : c.Counts (v ++ [f])) : ∃ c', c.pop = some c' ∧ c'.Counts v := by
  have hfit := h.fits
  have hsize := h.size
  rw [List.length_append, List.length_singleton] at hfit hsize
  refine ⟨_, if_neg (by omega), by omega, by rw [hsize, Nat.add_sub_cancel], ?_⟩
  rw [h.first_false, hsize, Nat.add_sub_cancel, List.idxOf_append]
  by_cases hmem : false ∈ v
  · have hlt := List.idxOf_lt_length_of_mem hmem
    simp [hmem, hlt.ne]
  · cases f
    · simp [hmem]
    · simp [hmem]

theorem ConditionStack.Counts.toggle_top {f : Bool} (h : c.Counts (v ++ [f])) :
    ∃ c', c.toggle_top = some c' ∧ c'.Counts (v ++ [!f]) := by
  have hfit := h.fits
  have hsize := h.size
  have hfirst := h.first_false
  rw [List.length_append, List.length_singleton] at hfit hsize
  rw [List.idxOf_append] at hfirst
  unfold ConditionStack.toggle_top
  rw [if_neg (by omega), hsize, Nat.add_sub_cancel]
  have hlen : v.length + 1 = (v ++ [!f]).length := by rw [List.length_append, List.length_singleton]
  by_cases hmem : false ∈ v
  · -- The first false is deeper than the top.
    have hlt := List.idxOf_lt_length_of_mem hmem
    simp only [List.mem_append, hmem, true_or, if_true] at hfirst
    rw [hfirst, if_neg (by omega), if_neg (by omega)]
    refine ⟨c, rfl, hlen ▸ hfit, hsize.trans hlen, ?_⟩
    simp [hmem, hfirst, List.idxOf_append]
  · cases f
    · have htop : c.first_false = v.length := by simpa [hmem] using hfirst
      rw [htop, if_neg (by omega), if_pos rfl]
      exact ⟨_, rfl, hlen ▸ hfit, hlen, by simp [hmem]⟩
    · have hnone : c.first_false = NO_FALSE := by simpa [hmem] using hfirst
      rw [hnone, if_pos rfl]
      exact ⟨_, rfl, hlen ▸ hfit, hlen, by simp [hmem, List.idxOf_append]⟩

theorem ConditionStack.Counts.step (h : c.Counts v) {op : ConditionOp} (hop : op.on_vector v = some w)
    (hfit : w.length ≤ NO_FALSE) : ∃ c', op.on_stack c = some c' ∧ c'.Counts w := by
  cases op with
  | push f =>
    cases hop
    exact h.push f hfit
  | pop =>
    rw [ConditionOp.on_vector] at hop
    obtain rfl | ⟨u, f, rfl⟩ := List.eq_nil_or_concat' v
    · cases hop
    · rw [if_neg (by simp), List.dropLast_concat] at hop
      cases hop
      exact h.pop
  | toggle_top =>
    rw [ConditionOp.on_vector] at hop
    obtain rfl | ⟨u, f, rfl⟩ := List.eq_nil_or_concat' v
    · cases hop
    · rw [List.getLast?_concat, List.dropLast_concat] at hop
      cases hop
      exact h.toggle_top

/-- The counts are those of the vector, through every run that never gets to `2 ^ 32` open conditions. -/
theorem condition_stack_refines {ops : List ConditionOp} (hv : ops.foldlM ConditionOp.on_vector [] = some v)
    (hfit : ∀ front u, front <+: ops → front.foldlM ConditionOp.on_vector [] = some u → u.length < 2 ^ 32) :
    ∃ c, ops.foldlM ConditionOp.on_stack .empty = some c ∧ c.size = v.length ∧ c.all_true = v.all id ∧
      c.first_false = if false ∈ v then v.idxOf false else NO_FALSE := by
  have hcounts : ∃ c, ops.foldlM ConditionOp.on_stack .empty = some c ∧ c.Counts v := by
    induction ops using List.reverseRecOn generalizing v with
    | nil =>
      cases hv
      exact ⟨.empty, rfl, Nat.zero_le _, rfl, rfl⟩
    | append_singleton ops op ih =>
      rw [List.foldlM_append] at hv ⊢
      obtain ⟨u, hu, hop⟩ := Option.bind_eq_some_iff.mp hv
      obtain ⟨c, hc, hcounts⟩ := ih hu fun front w hw => hfit front w (hw.trans (List.prefix_append ops [op]))
      have hlast : op.on_vector u = some v := by simpa using hop
      obtain ⟨c', hc', hcounts'⟩ := hcounts.step hlast
        (Nat.le_pred_of_lt (hfit _ v List.prefix_rfl (by rw [List.foldlM_append]; exact hv)))
      exact ⟨c', by rw [hc]; simpa using hc', hcounts'⟩
  obtain ⟨c, hc, h⟩ := hcounts
  refine ⟨c, hc, h.size, ?_, h.first_false⟩
  rw [Bool.eq_iff_iff, all_true, beq_iff_eq, h.first_false_iff, List.all_eq_true]
  constructor
  · intro hno b hb
    cases b
    · exact absurd hb hno
    · rfl
  · intro hall hmem
    cases hall false hmem

theorem condition_stack_refines_nested :
    ∃ c, [.push true, .push false, .push true, .pop, .toggle_top].foldlM ConditionOp.on_stack .empty = some c ∧
      c.size = 2 ∧ c.all_true = true ∧ c.first_false = NO_FALSE := by
  apply condition_stack_refines (v := [true, true]) rfl
  intro front u hp hu
  have hmem := (List.mem_inits _ _).mpr hp
  simp only [List.inits, List.map_cons, List.map_nil, List.mem_cons, List.not_mem_nil, or_false] at hmem
  rcases hmem with rfl | rfl | rfl | rfl | rfl | rfl <;> cases hu <;> decide

end AvilaNode.Interpreter
