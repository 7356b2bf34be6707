import Mathlib.Data.List.Induction
import Mathlib.Data.List.Sort

/-! Layers read newest first, and what sorting them by rank does to the reads. -/

namespace AvilaNode.Precedence

variable {ι β : Type} (rank : ι → ℕ) (val : ι → Option β)

def newest (layers : List ι) : Option β := layers.reverse.findSome? val

def by_rank (layers : List ι) : List ι := layers.insertionSort fun a b => rank a ≤ rank b

def Settled (layers : List ι) : Prop :=
  ∀ a ∈ layers, val a ≠ none → (∀ b ∈ layers, val b ≠ none → rank b ≤ rank a) → val a = newest val layers

variable {val}

theorem newest_append (older newer : List ι) : newest val (older ++ newer) =
    (newest val newer).or (newest val older) := by
  rw [newest, List.reverse_append, List.findSome?_append]
  rfl

variable {layers : List ι}

theorem newest_eq_none : newest val layers = none ↔ ∀ a ∈ layers, val a = none := by
  rw [newest, List.findSome?_eq_none_iff]
  simp

theorem newest_of_last {a : ι} {newer : List ι} (older : List ι) (ha : val a ≠ none) (h : ∀ b ∈ newer, val b = none) :
    newest val (older ++ a :: newer) = val a := by
  obtain ⟨v, hv⟩ := Option.ne_none_iff_exists'.mp ha
  have hsplit : older ++ a :: newer = (older ++ [a]) ++ newer := by simp
  rw [hsplit, newest_append, newest_eq_none.mpr h, newest_append]
  simp [newest, hv]

theorem newest_cons (a : ι) (layers : List ι) : newest val (a :: layers) = (newest val layers).or (val a) := by
  rw [← List.singleton_append, newest_append]
  cases h : val a <;> simp [newest, h]

theorem newest_forall₂ {κ : Type} {val' : κ → Option β} {layers' : List κ}
    (h : List.Forall₂ (fun a b => val a = val' b) layers layers') : newest val layers = newest val' layers' := by
  induction h with
  | nil => rfl
  | cons hab _ ih => rw [newest_cons, newest_cons, ih, hab]

theorem newest_perm_none {layers layers' : List ι} (h : layers'.Perm layers) :
    newest val layers' = none ↔ newest val layers = none := by
  rw [newest_eq_none, newest_eq_none]
  simp only [h.mem_iff]

theorem newest_of_getD {layers layers' : List ι} {fallback : β} (h : layers'.Perm layers)
    (heq : (newest val layers').getD fallback = (newest val layers).getD fallback) :
    newest val layers' = newest val layers := by
  have hnone : newest val layers' = none ↔ newest val layers = none := newest_perm_none h
  cases hnew : newest val layers' with
  | none => exact (hnone.mp hnew).symm
  | some v =>
    cases hold : newest val layers with
    | none => rw [hnone.mpr hold] at hnew; cases hnew
    | some w =>
      rw [hnew, hold] at heq
      exact congrArg some heq

theorem newest_sorted {rank : ι → ℕ} {v : β} (hs : layers.Pairwise fun a b => rank a ≤ rank b)
    (h : newest val layers = some v) :
    ∃ a ∈ layers, val a = some v ∧ ∀ b ∈ layers, val b ≠ none → rank b ≤ rank a := by
  induction layers using List.reverseRecOn with
  | nil => cases h
  | append_singleton layers a ih =>
    rw [List.pairwise_append] at hs
    rw [newest_append] at h
    cases ha : val a with
    | none =>
      have hnone : newest val [a] = none := by simp [newest, ha]
      rw [hnone, Option.none_or] at h
      obtain ⟨b, hb, hv, hmax⟩ := ih hs.1 h
      refine ⟨b, List.mem_append_left _ hb, hv, fun c hc hval => ?_⟩
      rcases List.mem_append.mp hc with hc | hc
      · exact hmax c hc hval
      · rw [List.mem_singleton.mp hc] at hval
        exact absurd ha hval
    | some w =>
      have hsome : newest val [a] = some w := by simp [newest, ha]
      rw [hsome, Option.some_or] at h
      refine ⟨a, by simp, ha.trans h, fun c hc _ => ?_⟩
      rcases List.mem_append.mp hc with hc | hc
      · exact hs.2.2 c hc a (List.mem_singleton.mpr rfl)
      · exact (List.mem_singleton.mp hc) ▸ le_refl _

section

variable {rank : ι → ℕ}

theorem sorted_by_rank (layers : List ι) : (by_rank rank layers).Pairwise fun a b => rank a ≤ rank b := by
  exact List.pairwise_insertionSort _ layers

theorem perm_by_rank (layers : List ι) : (by_rank rank layers).Perm layers := List.perm_insertionSort _ layers

theorem by_rank_sorted (h : layers.Pairwise fun a b => rank a ≤ rank b) :
    by_rank rank layers = layers := List.Pairwise.insertionSort_eq h

theorem map_by_rank {κ : Type} (f : κ → ι) (layers : List κ) :
    (by_rank (fun k => rank (f k)) layers).map f = by_rank rank (layers.map f) :=
  List.map_insertionSort _ _ f layers fun _ _ _ _ => Iff.rfl

theorem exists_last (rank : ι → ℕ) {a : ι} (ha : a ∈ layers) : ∃ older newer,
    (older ++ a :: newer).Perm layers ∧
    ((older ++ a :: newer).Pairwise fun x y => rank x ≤ rank y) ∧ ∀ b ∈ newer, rank a < rank b := by
  obtain ⟨pre, post, rfl⟩ := List.append_of_mem ha
  let low := (pre ++ post).filter fun b => decide (rank b ≤ rank a)
  let high := (pre ++ post).filter fun b => !decide (rank b ≤ rank a)
  have hlow : ∀ b ∈ by_rank rank low, rank b ≤ rank a := fun b hb => by
    have := (perm_by_rank low).subset hb
    simpa [low] using (List.mem_filter.mp this).2
  have hhigh : ∀ b ∈ by_rank rank high, rank a < rank b := fun b hb => by
    have := (perm_by_rank high).subset hb
    simpa [high] using (List.mem_filter.mp this).2
  refine ⟨by_rank rank low, by_rank rank high, ?_, ?_, hhigh⟩
  · have hparts : (low ++ high).Perm (pre ++ post) := List.filter_append_perm _ _
    exact (List.perm_middle.trans (((perm_by_rank low).append (perm_by_rank high)).trans hparts |>.cons a)).trans
      List.perm_middle.symm
  · rw [List.pairwise_append, List.pairwise_cons]
    refine ⟨sorted_by_rank low, ⟨fun b hb => (hhigh b hb).le, sorted_by_rank high⟩, fun x hx y hy => ?_⟩
    rcases List.mem_cons.mp hy with rfl | hy
    · exact hlow x hx
    · exact (hlow x hx).trans (hhigh y hy).le

theorem newest_by_rank_iff (layers : List ι) :
    (∀ listed : List ι, listed.Perm layers → newest val (by_rank rank listed) = newest val layers) ↔
      Settled rank val layers := by
  constructor
  · intro h a ha hrec hmax
    obtain ⟨older, newer, hperm, hsorted, habove⟩ := exists_last rank ha
    rw [← h _ hperm, by_rank_sorted hsorted, newest_of_last older hrec]
    intro b hb
    by_contra hval
    have hle := hmax b (hperm.subset (List.mem_append_right _ (List.mem_cons_of_mem _ hb))) hval
    have hlt := habove b hb
    omega
  · intro h listed hperm
    have hsame : ∀ a, a ∈ by_rank rank listed ↔ a ∈ layers := fun a => ((perm_by_rank listed).trans hperm).mem_iff
    cases hnew : newest val (by_rank rank listed) with
    | none =>
      refine (newest_eq_none.mpr fun a ha => ?_).symm
      exact newest_eq_none.mp hnew a ((hsame a).mpr ha)
    | some v =>
      obtain ⟨a, ha, hv, hmax⟩ := newest_sorted (sorted_by_rank listed) hnew
      rw [← hv]
      exact h a ((hsame a).mp ha) (by simp [hv]) fun b hb => hmax b ((hsame b).mpr hb)

end

end AvilaNode.Precedence
