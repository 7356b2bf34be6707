import Mathlib.Algebra.GroupWithZero.Nat
import Mathlib.Algebra.Order.BigOperators.Group.List
import Mathlib.Data.List.Nodup

/-! What a depth-first walk over a successor function collects. -/

namespace AvilaNode.ClosureWalk

open Relation

variable {α : Type} [DecidableEq α] (next : α → List α)

def walk : ℕ → List α → List α → List α
  | 0, _, seen => seen
  | _, [], seen => seen
  | fuel + 1, a :: stack, seen =>
    if a ∈ seen then walk fuel stack seen else walk fuel ((next a).reverse ++ stack) (seen ++ [a])

def visit : List α → List α × List α → List α × List α
  | [], p => p
  | b :: bs, (stack, seen) => if b ∈ seen then visit bs (stack, seen) else visit bs (b :: stack, seen ++ [b])

def spread : ℕ → List α → List α → List α
  | 0, _, seen => seen
  | _, [], seen => seen
  | fuel + 1, a :: stack, seen => spread fuel (visit (next a) (stack, seen)).1 (visit (next a) (stack, seen)).2

def Succ (a b : α) : Prop := b ∈ next a

variable {next}

variable {nodes : List α} (fuel : ℕ) {b : α}

variable (stack : List α)

theorem walk_nodup {seen : List α} (h : seen.Nodup) :
    (walk next fuel stack seen).Nodup := by
  induction fuel generalizing stack seen with
  | zero => exact h
  | succ fuel ih =>
    cases stack with
    | nil => exact h
    | cons a stack =>
      rw [walk]
      split
      · exact ih _ h
      · next hnew =>
        apply ih
        apply List.Nodup.append h (List.nodup_singleton a)
        rw [List.disjoint_singleton]
        exact hnew

theorem subset_walk (stack seen : List α) : seen ⊆ walk next fuel stack seen := by
  induction fuel generalizing stack seen with
  | zero => exact List.Subset.refl _
  | succ fuel ih =>
    cases stack with
    | nil => exact List.Subset.refl _
    | cons a stack =>
      rw [walk]
      split
      · exact ih _ _
      · exact List.Subset.trans (List.subset_append_left seen [a]) (ih _ _)

theorem walk_sound (stack seen : List α) (h : b ∈ walk next fuel stack seen) :
    b ∈ seen ∨ ∃ a ∈ stack, ReflTransGen (Succ next) a b := by
  induction fuel generalizing stack seen with
  | zero => exact Or.inl h
  | succ fuel ih =>
    cases stack with
    | nil => exact Or.inl h
    | cons a stack =>
      rw [walk] at h
      split at h
      · rcases ih _ _ h with h | ⟨c, hc, hb⟩
        · exact Or.inl h
        · exact Or.inr ⟨c, List.mem_cons_of_mem a hc, hb⟩
      · rcases ih _ _ h with h | ⟨c, hc, hb⟩
        · rcases List.mem_append.mp h with h | h
          · exact Or.inl h
          · rw [List.mem_singleton.mp h]
            exact Or.inr ⟨a, List.mem_cons_self, .refl⟩
        · rcases List.mem_append.mp hc with hc | hc
          · exact Or.inr ⟨a, List.mem_cons_self, hb.head (List.mem_reverse.mp hc)⟩
          · exact Or.inr ⟨c, List.mem_cons_of_mem a hc, hb⟩

def unseen (next : α → List α) (nodes seen : List α) : ℕ :=
  ((nodes.filter fun a => a ∉ seen).map fun a => (next a).length).sum

theorem unseen_concat {nodes seen : List α} (hn : nodes.Nodup) {a : α} (ha : a ∈ nodes) (hs : a ∉ seen) :
    unseen next nodes seen = unseen next nodes (seen ++ [a]) + (next a).length := by
  induction nodes with
  | nil => cases ha
  | cons b nodes ih =>
    obtain ⟨hb, hn⟩ := List.nodup_cons.mp hn
    unfold unseen at ih ⊢
    by_cases hba : b = a
    · subst hba
      have hrest : nodes.filter (fun c => c ∉ seen ++ [b]) = nodes.filter (fun c => c ∉ seen) := by
        apply List.filter_congr
        intro c hc
        have hcb : c ≠ b := fun h => hb (h ▸ hc)
        simp [hcb]
      rw [List.filter_cons_of_pos (by simpa using hs), List.filter_cons_of_neg (by simp), hrest, List.map_cons,
        List.sum_cons, Nat.add_comm]
    · have ih := ih hn ((List.mem_cons.mp ha).resolve_left fun h => hba h.symm)
      by_cases hseen : b ∈ seen
      · rw [List.filter_cons_of_neg (by simpa using hseen), List.filter_cons_of_neg (by simp [hseen])]
        exact ih
      · rw [List.filter_cons_of_pos (by simpa using hseen), List.filter_cons_of_pos (by simpa [hba] using hseen),
          List.map_cons, List.map_cons, List.sum_cons, List.sum_cons, ih, Nat.add_assoc]

theorem walk_complete (hn : nodes.Nodup) (hnodes : ∀ a, a ∉ nodes → next a = []) (fuel : ℕ) (stack seen : List α)
    (hfuel : stack.length + unseen next nodes seen ≤ fuel) (hseen : ∀ a ∈ seen, ∀ b ∈ next a, b ∈ seen ∨ b ∈ stack) :
    stack ⊆ walk next fuel stack seen ∧
      ∀ a ∈ walk next fuel stack seen, ∀ b ∈ next a, b ∈ walk next fuel stack seen := by
  induction fuel generalizing stack seen with
  | zero =>
    obtain rfl : stack = [] := List.length_eq_zero_iff.mp (by omega)
    exact ⟨List.nil_subset _, fun a ha b hb => (hseen a ha b hb).resolve_right List.not_mem_nil⟩
  | succ fuel ih =>
    cases stack with
    | nil => exact ⟨List.nil_subset _, fun a ha b hb => (hseen a ha b hb).resolve_right List.not_mem_nil⟩
    | cons a stack =>
      rw [walk]
      rw [List.length_cons] at hfuel
      split
      · next hold =>
        obtain ⟨hstack, hclosed⟩ := ih stack seen (by omega) fun c hc b hb =>
          (hseen c hc b hb).elim Or.inl fun h => (List.mem_cons.mp h).elim (fun h => Or.inl (h ▸ hold)) Or.inr
        exact ⟨List.cons_subset.mpr ⟨subset_walk _ _ _ hold, hstack⟩, hclosed⟩
      · next hnew =>
        have hmeasure : ((next a).reverse ++ stack).length + unseen next nodes (seen ++ [a]) ≤ fuel := by
          rw [List.length_append, List.length_reverse]
          by_cases ha : a ∈ nodes
          · have hless : unseen next nodes seen = unseen next nodes (seen ++ [a]) + (next a).length :=
              unseen_concat hn ha hnew
            omega
          · have hle : unseen next nodes (seen ++ [a]) = unseen next nodes seen := by
              unfold unseen
              congr 2
              apply List.filter_congr
              intro c hc
              have hca : c ≠ a := fun h => ha (h ▸ hc)
              simp [hca]
            rw [hnodes a ha, List.length_nil, hle]
            omega
        obtain ⟨hstack, hclosed⟩ := ih _ _ hmeasure fun c hc b hb => by
          rcases List.mem_append.mp hc with hc | hc
          · rcases hseen c hc b hb with h | h
            · exact Or.inl (List.mem_append_left _ h)
            · rcases List.mem_cons.mp h with rfl | h
              · exact Or.inl (List.mem_append_right _ (List.mem_singleton_self b))
              · exact Or.inr (List.mem_append_right _ h)
          · rw [List.mem_singleton.mp hc] at hb
            exact Or.inr (List.mem_append_left _ (List.mem_reverse.mpr hb))
        refine ⟨List.cons_subset.mpr ⟨?_, fun c hc => hstack (List.mem_append_right _ hc)⟩, hclosed⟩
        exact subset_walk _ _ _ (List.mem_append_right _ (List.mem_singleton_self a))

theorem mem_walk (hn : nodes.Nodup) (hnodes : ∀ a, a ∉ nodes → next a = []) {fuel : ℕ} {stack : List α}
    (hfuel : stack.length + (nodes.map fun a => (next a).length).sum ≤ fuel) :
    b ∈ walk next fuel stack [] ↔ ∃ a ∈ stack, ReflTransGen (Succ next) a b := by
  constructor
  · intro h
    exact (walk_sound fuel stack [] h).resolve_left List.not_mem_nil
  · rintro ⟨a, ha, hab⟩
    have hunseen : unseen next nodes [] = (nodes.map fun a => (next a).length).sum := by
      simp [unseen]
    obtain ⟨hstack, hclosed⟩ := walk_complete hn hnodes fuel stack [] (by rw [hunseen]; exact hfuel) fun c hc =>
      absurd hc List.not_mem_nil
    induction hab with
    | refl => exact hstack ha
    | tail _ hbc ih => exact hclosed _ ih _ hbc

theorem visit_eq (bs stack seen : List α) : ∃ fresh, visit bs (stack, seen) = (fresh.reverse ++ stack, seen ++ fresh)
    ∧ fresh.Nodup ∧ ∀ b, b ∈ fresh ↔ b ∈ bs ∧ b ∉ seen := by
  induction bs generalizing stack seen with
  | nil => exact ⟨[], by simp [visit], .nil, by simp⟩
  | cons c bs ih =>
    rw [visit]
    split
    · next hold =>
      obtain ⟨fresh, heq, hn, hm⟩ := ih stack seen
      refine ⟨fresh, heq, hn, fun b => ?_⟩
      rw [hm, List.mem_cons]
      constructor
      · exact fun h => ⟨Or.inr h.1, h.2⟩
      · rintro ⟨rfl | hb, hs⟩
        · exact absurd hold hs
        · exact ⟨hb, hs⟩
    · next hnew =>
      obtain ⟨fresh, heq, hn, hm⟩ := ih (c :: stack) (seen ++ [c])
      refine ⟨c :: fresh, ?_, List.nodup_cons.mpr ⟨?_, hn⟩, fun b => ?_⟩
      · rw [heq]
        simp
      · rw [hm]
        simp
      · rw [List.mem_cons, hm, List.mem_cons, List.mem_append, List.mem_singleton, not_or]
        constructor
        · rintro (rfl | ⟨hb, hs, -⟩)
          · exact ⟨Or.inl rfl, hnew⟩
          · exact ⟨Or.inr hb, hs⟩
        · rintro ⟨hb, hs⟩
          by_cases hbc : b = c
          · exact Or.inl hbc
          · exact Or.inr ⟨hb.resolve_left hbc, hs, hbc⟩

theorem spread_nodup {seen : List α} (h : seen.Nodup) :
    (spread next fuel stack seen).Nodup := by
  induction fuel generalizing stack seen with
  | zero => exact h
  | succ fuel ih =>
    cases stack with
    | nil => exact h
    | cons a stack =>
      obtain ⟨fresh, heq, hn, hm⟩ := visit_eq (next a) stack seen
      rw [spread, heq]
      apply ih
      apply List.Nodup.append h hn
      intro b hb hf
      exact ((hm b).mp hf).2 hb

theorem spread_sound (stack seen : List α) (h : b ∈ spread next fuel stack seen) :
    b ∈ seen ∨ ∃ a ∈ stack, TransGen (Succ next) a b := by
  induction fuel generalizing stack seen with
  | zero => exact Or.inl h
  | succ fuel ih =>
    cases stack with
    | nil => exact Or.inl h
    | cons a stack =>
      obtain ⟨fresh, heq, -, hm⟩ := visit_eq (next a) stack seen
      rw [spread, heq] at h
      rcases ih _ _ h with h | ⟨c, hc, hb⟩
      · rcases List.mem_append.mp h with h | h
        · exact Or.inl h
        · exact Or.inr ⟨a, List.mem_cons_self, .single ((hm b).mp h).1⟩
      · rcases List.mem_append.mp hc with hc | hc
        · exact Or.inr ⟨a, List.mem_cons_self, hb.head ((hm c).mp (List.mem_reverse.mp hc)).1⟩
        · exact Or.inr ⟨c, List.mem_cons_of_mem a hc, hb⟩

theorem unmarked_append {nodes seen fresh : List α} (hn : nodes.Nodup) (hf : fresh.Nodup)
    (h : ∀ b ∈ fresh, b ∈ nodes ∧ b ∉ seen) :
    (nodes.filter fun a => a ∉ seen ++ fresh).length + fresh.length ≤ (nodes.filter fun a => a ∉ seen).length := by
  rw [← List.length_append]
  apply List.Subperm.length_le
  apply List.subperm_of_subset
  · apply List.Nodup.append (hn.filter _) hf
    intro b hb hb'
    simp [hb'] at hb
  · intro b hb
    rcases List.mem_append.mp hb with hb | hb
    · simp only [List.mem_filter, List.mem_append, not_or, decide_eq_true_eq] at hb ⊢
      exact ⟨hb.1, hb.2.1⟩
    · simp only [List.mem_filter, decide_eq_true_eq]
      exact h b hb

theorem spread_complete (hn : nodes.Nodup) (hnodes : ∀ a, ∀ b ∈ next a, b ∈ nodes) (start : α) (fuel : ℕ)
    (stack seen : List α) (hfuel : stack.length + (nodes.filter fun a => a ∉ seen).length ≤ fuel)
    (hseen : ∀ a, a = start ∨ a ∈ seen → a ∈ stack ∨ ∀ b ∈ next a, b ∈ seen) :
    ∀ a, a = start ∨ a ∈ spread next fuel stack seen → ∀ b ∈ next a, b ∈ spread next fuel stack seen := by
  induction fuel generalizing stack seen with
  | zero =>
    obtain rfl : stack = [] := List.length_eq_zero_iff.mp (by omega)
    exact fun a ha => (hseen a ha).resolve_left List.not_mem_nil
  | succ fuel ih =>
    cases stack with
    | nil => exact fun a ha => (hseen a ha).resolve_left List.not_mem_nil
    | cons c stack =>
      obtain ⟨fresh, heq, hf, hm⟩ := visit_eq (next c) stack seen
      have hmarked := unmarked_append hn hf fun b hb => ⟨hnodes c b ((hm b).mp hb).1, ((hm b).mp hb).2⟩
      rw [spread, heq]
      apply ih
      · rw [List.length_append, List.length_reverse]
        rw [List.length_cons] at hfuel
        dsimp only
        omega
      · intro a ha
        have hold : a = start ∨ a ∈ seen → a ∈ fresh.reverse ++ stack ∨ ∀ b ∈ next a, b ∈ seen ++ fresh := by
          intro ha
          rcases hseen a ha with h | h
          · rcases List.mem_cons.mp h with rfl | h
            · right
              intro b hb
              by_cases hbs : b ∈ seen
              · exact List.mem_append_left _ hbs
              · exact List.mem_append_right _ ((hm b).mpr ⟨hb, hbs⟩)
            · exact Or.inl (List.mem_append_right _ h)
          · exact Or.inr fun b hb => List.mem_append_left _ (h b hb)
        rcases ha with ha | ha
        · exact hold (Or.inl ha)
        · rcases List.mem_append.mp ha with ha | ha
          · exact hold (Or.inr ha)
          · exact Or.inl (List.mem_append_left _ (List.mem_reverse.mpr ha))

theorem mem_spread (hn : nodes.Nodup) (hnodes : ∀ a, ∀ b ∈ next a, b ∈ nodes) {fuel : ℕ} (hfuel : nodes.length < fuel)
    {a b : α} : b ∈ spread next fuel [a] [] ↔ TransGen (Succ next) a b := by
  constructor
  · intro h
    obtain ⟨c, hc, hb⟩ := (spread_sound fuel [a] [] h).resolve_left List.not_mem_nil
    rwa [List.mem_singleton.mp hc] at hb
  · intro h
    have hclosed := spread_complete hn hnodes a fuel [a] []
      (by simpa [Nat.add_comm] using Nat.succ_le_of_lt hfuel) fun c hc =>
      Or.inl (List.mem_singleton.mpr (hc.resolve_right List.not_mem_nil))
    induction h with
    | single h => exact hclosed a (Or.inl rfl) _ h
    | tail _ hbc ih => exact hclosed _ (Or.inr ih) _ hbc

end AvilaNode.ClosureWalk
