import Mathlib.Data.List.Sort

/-! Entries of a sorted list against counts of the list it sorts. -/

namespace AvilaNode.OrderStatistic

variable {α : Type} [LinearOrder α]

def countFrom (m : α) (values : List α) : ℕ := values.countP fun v => decide (m ≤ v)

variable (m : α)

@[simp] theorem countFrom_nil : countFrom m [] = 0 := rfl

theorem countFrom_cons (m v : α) (values : List α) :
    countFrom m (v :: values) = countFrom m values + if m ≤ v then 1 else 0 := by
  simp [countFrom, List.countP_cons]

variable (values : List α)

theorem countFrom_le : countFrom m values ≤ values.length := List.countP_le_length

theorem countFrom_perm {m : α} {values values' : List α} (h : values.Perm values') :
    countFrom m values = countFrom m values' := h.countP_eq _

theorem countFrom_take (n : ℕ) :
    countFrom m values ≤ countFrom m (values.take n) + (values.length - n) := by
  have h : countFrom m values = countFrom m (values.take n) + countFrom m (values.drop n) := by
    rw [countFrom, ← List.take_append_drop n values, List.countP_append]
    simp [countFrom]
  have hd := countFrom_le m (values.drop n)
  rw [List.length_drop] at hd
  omega

theorem le_getElem_iff {sorted : List α} (hs : sorted.Pairwise (· ≤ ·)) {i : ℕ} (hi : i < sorted.length) {m : α} :
    m ≤ sorted[i] ↔ sorted.length ≤ i + countFrom m sorted := by
  induction sorted generalizing i with
  | nil => simp at hi
  | cons head tail ih =>
    obtain ⟨hhead, htail⟩ := List.pairwise_cons.mp hs
    have hall : m ≤ head → countFrom m tail = tail.length := by
      intro hm
      apply List.countP_eq_length.mpr
      intro v hv
      simpa using hm.trans (hhead v hv)
    rw [countFrom_cons, List.length_cons]
    cases i with
    | zero =>
      have hle := countFrom_le m tail
      by_cases hm : m ≤ head
      · simp [hm, hall hm]
      · simp only [List.getElem_cons_zero, hm, if_false, false_iff]
        omega
    | succ i =>
      have hi' : i < tail.length := by simpa using hi
      rw [List.getElem_cons_succ, ih htail hi']
      by_cases hm : m ≤ head
      · have := hall hm
        simp only [hm, if_true]
        omega
      · simp only [hm, if_false]
        omega

theorem le_getD_insertionSort {values : List α} {i : ℕ} (hi : i < values.length) {m d : α} :
    m ≤ (values.insertionSort (· ≤ ·)).getD i d ↔ values.length ≤ i + countFrom m values := by
  have hlen : (values.insertionSort (· ≤ ·)).length = values.length := List.length_insertionSort _ _
  have hi' : i < (values.insertionSort (· ≤ ·)).length := by omega
  rw [List.getD_eq_getElem?_getD, List.getElem?_eq_getElem hi', Option.getD_some,
    le_getElem_iff (List.pairwise_insertionSort _ _) hi', hlen,
    countFrom_perm (List.perm_insertionSort _ _)]

end AvilaNode.OrderStatistic
