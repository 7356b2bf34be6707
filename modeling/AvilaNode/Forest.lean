import Mathlib.Algebra.BigOperators.Group.Finset.Basic
import Mathlib.Algebra.GroupWithZero.Nat
import Mathlib.Algebra.Order.BigOperators.Group.List

/-! Finite forests given by parent links, each one height down, and the children they index. -/

namespace AvilaNode

structure Forest (K : Type) where
  nodes : Finset K
  parent : K → Option K
  height : K → ℕ
  children : K → List K
  mem_of_parent : ∀ {c p}, parent c = some p → c ∈ nodes ∧ p ∈ nodes
  height_of_parent : ∀ {c p}, parent c = some p → height c = height p + 1
  mem_children : ∀ {p c}, c ∈ children p ↔ parent c = some p
  children_nodup : ∀ p, (children p).Nodup

namespace Forest

variable {K : Type} {F : Forest K} {a b c d : K}

def Below (F : Forest K) (a d : K) : Prop := Relation.ReflTransGen (fun p c => F.parent c = some p) a d

theorem Below.mem (h : F.Below a d) (ha : a ∈ F.nodes) : d ∈ F.nodes := by
  induction h with
  | refl => exact ha
  | tail _ hp _ => exact (F.mem_of_parent hp).1

theorem Below.height_le (h : F.Below a d) : F.height a ≤ F.height d := by
  induction h with
  | refl => exact le_rfl
  | tail _ hp ih => rw [F.height_of_parent hp]; omega

theorem Below.eq_of_height (h : F.Below a d) (hh : F.height d ≤ F.height a) : a = d := by
  rcases h.cases_tail with he | ⟨p, hb, hp⟩
  · exact he.symm
  · have := Below.height_le hb
    rw [F.height_of_parent hp] at hh
    omega

theorem Below.linear (ha : F.Below a d) (hb : F.Below b d) : F.Below a b ∨ F.Below b a := by
  have hu : Relator.RightUnique (Function.swap fun p c => F.parent c = some p) := by
    intro c p q hp hq
    exact Option.some.inj ((hp : F.parent c = some p).symm.trans hq)
  rcases Relation.ReflTransGen.total_of_right_unique hu ha.swap hb.swap with h | h
  · exact Or.inr h.swap
  · exact Or.inl h.swap

theorem Below.unique (ha : F.Below a d) (hb : F.Below b d) (h : F.height a = F.height b) : a = b := by
  rcases ha.linear hb with hab | hba
  · exact hab.eq_of_height h.ge
  · exact (hba.eq_of_height h.le).symm

theorem below_iff_children : F.Below a d ↔ a = d ∨ ∃ c ∈ F.children a, F.Below c d := by
  simp only [F.mem_children]
  exact Relation.ReflTransGen.cases_head_iff

section

open Classical

noncomputable def subtree (F : Forest K) (a : K) : Finset K := F.nodes.filter (F.Below a)

theorem mem_subtree (ha : a ∈ F.nodes) : d ∈ F.subtree a ↔ F.Below a d := by
  rw [subtree, Finset.mem_filter]
  exact ⟨fun h => h.2, fun h => ⟨h.mem ha, h⟩⟩

noncomputable def size (F : Forest K) (a : K) : ℕ := (F.subtree a).card

theorem size_le (F : Forest K) (a : K) : F.size a ≤ F.nodes.card := Finset.card_filter_le _ _

theorem size_eq (ha : a ∈ F.nodes) : F.size a = ((F.children a).map F.size).sum + 1 := by
  have hsub : F.subtree a = insert a ((F.children a).toFinset.biUnion F.subtree) := by
    ext d
    rw [mem_subtree ha, below_iff_children, Finset.mem_insert, Finset.mem_biUnion]
    apply or_congr eq_comm
    constructor
    · rintro ⟨c, hc, hd⟩
      exact ⟨c, List.mem_toFinset.mpr hc, (mem_subtree (F.mem_of_parent (F.mem_children.mp hc)).1).mpr hd⟩
    · rintro ⟨c, hc, hd⟩
      rw [List.mem_toFinset] at hc
      exact ⟨c, hc, (mem_subtree (F.mem_of_parent (F.mem_children.mp hc)).1).mp hd⟩
  have hnot : a ∉ (F.children a).toFinset.biUnion F.subtree := by
    rw [Finset.mem_biUnion]
    rintro ⟨c, hc, hd⟩
    rw [List.mem_toFinset] at hc
    have hp := F.mem_children.mp hc
    have hle := ((mem_subtree (F.mem_of_parent hp).1).mp hd).height_le
    rw [F.height_of_parent hp] at hle
    omega
  have hdisj : Set.PairwiseDisjoint (↑(F.children a).toFinset) F.subtree := by
    intro c hc c' hc' hne
    rw [Finset.mem_coe, List.mem_toFinset] at hc hc'
    have hp := F.mem_children.mp hc
    have hp' := F.mem_children.mp hc'
    rw [Function.onFun, Finset.disjoint_left]
    intro d hd hd'
    apply hne
    apply ((mem_subtree (F.mem_of_parent hp).1).mp hd).unique ((mem_subtree (F.mem_of_parent hp').1).mp hd')
    rw [F.height_of_parent hp, F.height_of_parent hp']
  rw [size, hsub, Finset.card_insert_of_notMem hnot, Finset.card_biUnion hdisj,
    List.sum_toFinset _ (F.children_nodup a)]
  rfl

end

noncomputable def weight (F : Forest K) (stack : List K) : ℕ := (stack.map F.size).sum

theorem weight_cons (F : Forest K) (a : K) (stack : List K) : F.weight (a :: stack) = F.size a + F.weight stack := by
  simp [weight]

theorem weight_push (ha : a ∈ F.nodes) (stack : List K) :
    F.weight ((F.children a).reverse ++ stack) + 1 = F.weight (a :: stack) := by
  rw [weight_cons, size_eq ha, weight, List.map_append, List.sum_append, List.map_reverse, List.sum_reverse]
  simp only [weight]
  omega

end Forest

end AvilaNode
