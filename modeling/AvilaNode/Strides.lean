import Mathlib.Data.List.Basic
import Mathlib.Order.Basic

/-! A descent of the natural numbers to 0, by strides that at most double. -/

namespace Strides

def strides (gap : ℕ → ℕ) : ℕ → ℕ → ℕ → List ℕ
  | 0, _, height => [height]
  | fuel + 1, i, height => height :: if height = 0 then [] else strides gap fuel (i + 1) (height - gap i)

variable {gap : ℕ → ℕ}

theorem strides_head (fuel i height : ℕ) : (strides gap fuel i height).head? = some height := by
  cases fuel <;> rfl

theorem strides_le (fuel i height : ℕ) : ∀ x ∈ strides gap fuel i height, x ≤ height := by
  induction fuel generalizing i height with
  | zero => simp [strides]
  | succ fuel ih =>
    intro x hx
    rw [strides, List.mem_cons] at hx
    rcases hx with rfl | hx
    · exact Nat.le_refl _
    · split at hx
      · cases hx
      · have := ih _ _ x hx
        omega

theorem strides_descending (hpos : ∀ i, 0 < gap i) (fuel i height : ℕ) :
    (strides gap fuel i height).Pairwise (· > ·) := by
  induction fuel generalizing i height with
  | zero => simp [strides]
  | succ fuel ih =>
    rw [strides, List.pairwise_cons]
    split
    · simp
    · refine ⟨fun x hx => ?_, ih _ _⟩
      have := strides_le fuel (i + 1) (height - gap i) x hx
      have := hpos i
      omega

variable {fuel i height : ℕ}

theorem strides_last (hpos : ∀ i, 0 < gap i) (h : height ≤ fuel) :
    (strides gap fuel i height).getLast? = some 0 := by
  induction fuel generalizing i height with
  | zero =>
    rw [Nat.le_zero.mp h]
    rfl
  | succ fuel ih =>
    rw [strides]
    split
    · rename_i h0
      rw [h0]
      rfl
    · have := hpos i
      rw [List.getLast?_cons, ih (by omega)]
      rfl

theorem strides_gap (fuel i height : ℕ) {j a b : ℕ} (ha : (strides gap fuel i height)[j]? = some a)
    (hb : (strides gap fuel i height)[j + 1]? = some b) : b = a - gap (i + j) := by
  induction fuel generalizing i height j with
  | zero => simp [strides] at hb
  | succ fuel ih =>
    rw [strides] at ha hb
    rw [List.getElem?_cons_succ] at hb
    split at hb
    · simp at hb
    rename_i h0
    rw [if_neg h0] at ha
    cases j with
    | zero =>
      have hhead := @strides_head gap fuel (i + 1) (height - gap i)
      rw [List.head?_eq_getElem?, hb] at hhead
      simp only [List.getElem?_cons_zero, Option.some.injEq] at ha hhead
      rw [hhead, ha, Nat.add_zero]
    | succ j =>
      rw [List.getElem?_cons_succ] at ha
      rw [ih (i + 1) _ ha hb]
      congr 2
      omega

theorem strides_reach (hdouble : ∀ i, gap (i + 1) ≤ 2 * gap i) {start mark : ℕ} (hf : height ≤ fuel)
    (hpos : ∀ i, 0 < gap i) (hgap : height ≠ 0 → height + gap i ≤ start + 1)
    (hnear : height ≤ mark → 2 * mark ≤ height + start ∨ height = 0) :
    ∃ x ∈ strides gap fuel i height, x ≤ mark ∧ (∀ y ∈ strides gap fuel i height, y ≤ mark → y ≤ x)
      ∧ (2 * mark ≤ x + start ∨ x = 0) := by
  induction fuel generalizing i height with
  | zero =>
    have h0 := Nat.le_zero.mp hf
    exact ⟨height, by simp [strides], by omega, by simp [strides], Or.inr h0⟩
  | succ fuel ih =>
    by_cases hm : height ≤ mark
    · refine ⟨height, by simp [strides], hm, fun y hy _ => strides_le _ _ _ y hy, hnear hm⟩
    have h0 : height ≠ 0 := by omega
    have hi := hpos i
    have hd := hdouble i
    obtain ⟨x, hx, hle, hmax, hreach⟩ := @ih (i + 1) (height - gap i) (by omega) (by omega) (by omega)
    refine ⟨x, ?_, hle, ?_, hreach⟩
    · rw [strides, if_neg h0]
      exact List.mem_cons_of_mem _ hx
    · intro y hy hym
      rw [strides, if_neg h0, List.mem_cons] at hy
      rcases hy with rfl | hy
      · exact absurd hym hm
      · exact hmax y hy hym

end Strides
