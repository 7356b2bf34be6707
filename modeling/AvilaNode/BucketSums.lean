import Mathlib.Algebra.BigOperators.Group.List.Basic
import Mathlib.Algebra.Module.NatInt
import Mathlib.Tactic.Abel

/-! Sums of multiples by buckets: one digit of the multipliers at a time, the equal digits of a window together. -/

namespace AvilaNode.BucketSums

variable {M : Type} [AddCommMonoid M]

def combination (terms : List (ℕ × M)) : M := (terms.map fun t => t.1 • t.2).sum

def weigh : ℕ → List M → M
  | _, [] => 0
  | k, b :: buckets => k • b + weigh (k + 1) buckets

def scatter (size : ℕ) (terms : List (ℕ × M)) : List M :=
  terms.foldl (fun buckets t => if t.1 = 0 then buckets else buckets.modify t.1 (· + t.2)) (List.replicate size 0)

def running_sums (buckets : List M) : M × M := buckets.foldr (fun b s => (s.1 + b, s.2 + (s.1 + b))) (0, 0)

def windows (width : ℕ) (window : ℕ → M) : ℕ → M → M
  | 0, acc => acc
  | w + 1, acc => windows width window w ((fun acc => acc + acc)^[width] acc + window w)

theorem weigh_succ (k : ℕ) (buckets : List M) : weigh (k + 1) buckets = weigh k buckets + buckets.sum := by
  induction buckets generalizing k with
  | nil => simp [weigh]
  | cons b buckets ih =>
    rw [weigh, weigh, ih (k + 1), List.sum_cons, add_smul, one_smul]
    abel

variable {terms : List (ℕ × M)} (buckets : List M) {points : List M}

theorem running_sums_eq : running_sums buckets = (buckets.sum, weigh 1 buckets) := by
  induction buckets with
  | nil => rfl
  | cons b buckets ih =>
    have hfold : running_sums (b :: buckets) =
        ((running_sums buckets).1 + b, (running_sums buckets).2 + ((running_sums buckets).1 + b)) := rfl
    rw [hfold, ih, weigh, weigh_succ 1, List.sum_cons, one_smul]
    refine Prod.ext ?_ ?_ <;> dsimp only <;> abel

theorem weigh_drop_one : weigh 1 (buckets.drop 1) = weigh 0 buckets := by
  cases buckets with
  | nil => rfl
  | cons b buckets => rw [weigh, zero_smul, zero_add, List.drop_one, List.tail_cons]

theorem weigh_modify {buckets : List M} {d : ℕ} (h : d < buckets.length) (k : ℕ) (p : M) :
    weigh k (buckets.modify d (· + p)) = weigh k buckets + (k + d) • p := by
  induction buckets generalizing d k with
  | nil => simp at h
  | cons b buckets ih =>
    cases d with
    | zero =>
      rw [List.modify_zero_cons, weigh, weigh, smul_add, add_zero]
      abel
    | succ d =>
      rw [List.modify_succ_cons, weigh, weigh, ih (by simpa using h)]
      rw [show k + (d + 1) = k + 1 + d by omega]
      abel

theorem weigh_replicate (k size : ℕ) : weigh k (List.replicate size (0 : M)) = 0 := by
  induction size generalizing k with
  | zero => rfl
  | succ size ih => rw [List.replicate_succ, weigh, smul_zero, zero_add, ih]

theorem weigh_scatter {size : ℕ} (h : ∀ t ∈ terms, t.1 < size) :
    weigh 0 (scatter size terms) = combination terms := by
  suffices hs : ∀ buckets : List M, buckets.length = size →
      weigh 0 (terms.foldl (fun buckets t => if t.1 = 0 then buckets else buckets.modify t.1 (· + t.2)) buckets) =
        weigh 0 buckets + combination terms by
    rw [scatter, hs _ (List.length_replicate ..), weigh_replicate, zero_add]
  induction terms with
  | nil => simp [combination]
  | cons t terms ih =>
    intro buckets hlen
    have ht : t.1 < size := h t List.mem_cons_self
    have hrest := ih fun t ht => h t (List.mem_cons_of_mem _ ht)
    rw [List.foldl_cons, combination, List.map_cons, List.sum_cons, ← combination]
    split
    · rename_i h0
      rw [hrest buckets hlen, h0, zero_smul, zero_add]
    · rw [hrest _ (by rw [List.length_modify, hlen]), weigh_modify (by omega), zero_add, add_assoc]

theorem window_eq {size : ℕ} (h : ∀ t ∈ terms, t.1 < size) :
    (running_sums ((scatter size terms).drop 1)).2 = combination terms := by
  rw [running_sums_eq, weigh_drop_one, weigh_scatter h]

theorem double_iterate (width : ℕ) (acc : M) : (fun acc => acc + acc)^[width] acc = 2 ^ width • acc := by
  induction width generalizing acc with
  | zero => simp
  | succ width ih => rw [Function.iterate_succ_apply, ih, pow_succ, mul_smul, two_smul]

/-- If every window is the combination by its digits, the windows below `count` complete the combination by what
the digits from `count` on say. -/
theorem windows_eq {width count : ℕ} {window : ℕ → M}
    (h : ∀ w < count, window w = combination (terms.map fun t => (t.1 / (2 ^ width) ^ w % 2 ^ width, t.2))) :
    windows width window count (combination (terms.map fun t => (t.1 / (2 ^ width) ^ count, t.2))) =
      combination terms := by
  induction count with
  | zero => simp [windows]
  | succ count ih =>
    rw [windows, double_iterate, h count (by omega), ← ih fun w hw => h w (by omega)]
    congr 1
    clear h ih
    induction terms with
    | nil => simp [combination]
    | cons t terms iht =>
      have hdigit : t.1 / (2 ^ width) ^ count =
          2 ^ width * (t.1 / (2 ^ width) ^ (count + 1)) + t.1 / (2 ^ width) ^ count % 2 ^ width := by
        rw [pow_succ, ← Nat.div_div_eq_div_mul, Nat.div_add_mod]
      simp only [combination, List.map_cons, List.sum_cons, List.map_map] at iht ⊢
      rw [smul_add, ← mul_smul]
      conv_rhs => rw [hdigit, add_smul]
      rw [← iht]
      abel

def weighted (c : ℕ → ℕ) : ℕ → List M → M
  | _, [] => 0
  | i, p :: points => c i • p + weighted c (i + 1) points

theorem weighted_congr {c c' : ℕ → ℕ} {i : ℕ} (points : List M) (h : ∀ j, i ≤ j → c j = c' j) :
    weighted c i points = weighted c' i points := by
  induction points generalizing i with
  | nil => rfl
  | cons p points ih => rw [weighted, weighted, h i le_rfl, ih fun j hj => h j (by omega)]

theorem weighted_update (c : ℕ → ℕ) {i j : ℕ} (hj : j < points.length) :
    weighted (Function.update c (i + j) (c (i + j) + 1)) i points = weighted c i points + points[j] := by
  induction points generalizing i j with
  | nil => simp at hj
  | cons p points ih =>
    cases j with
    | zero =>
      rw [weighted, weighted, add_zero, Function.update_self, List.getElem_cons_zero, add_smul, one_smul,
        weighted_congr points fun k hk => Function.update_of_ne (by omega) _ c]
      abel
    | succ j =>
      have hlt : j < points.length := by simpa using hj
      rw [weighted, weighted, Function.update_of_ne (by omega), List.getElem_cons_succ,
        show i + (j + 1) = i + 1 + j by omega, ih hlt, add_assoc]

theorem eq_zero_of_weighted {i : ℕ} (h : ∀ c : ℕ → ℕ, (∀ k, c k = 1 ∨ c k = 2) → weighted c i points = 0) :
    ∀ p ∈ points, p = 0 := by
  intro p hp
  obtain ⟨j, hj, rfl⟩ := List.mem_iff_getElem.mp hp
  have hones := h (fun _ => 1) fun _ => Or.inl rfl
  have hmore := h (Function.update (fun _ => 1) (i + j) 2) fun k => by
    by_cases hk : k = i + j <;> simp [hk]
  have hadd := weighted_update (fun _ => 1) (i := i) hj
  rw [show (1 : ℕ) + 1 = 2 from rfl, hmore, hones, zero_add] at hadd
  exact hadd.symm

end AvilaNode.BucketSums
