import Mathlib.Data.List.Basic
import Mathlib.Tactic.Ring

/-! Numbers written in a base, the highest digit first. -/

namespace AvilaNode.Radix

variable {b : ℕ}

def number (b : ℕ) (digits : List ℕ) : ℕ := digits.foldl (fun n d => n * b + d) 0

@[simp]
theorem number_nil (b : ℕ) : number b [] = 0 := rfl

theorem foldl_number (b n : ℕ) (digits : List ℕ) :
    digits.foldl (fun n d => n * b + d) n = n * b ^ digits.length + number b digits := by
  induction digits generalizing n with
  | nil => simp
  | cons d digits ih =>
    rw [number, List.foldl_cons, List.foldl_cons, ih, ih, List.length_cons, pow_succ]
    ring

theorem number_append (b : ℕ) (xs ys : List ℕ) :
    number b (xs ++ ys) = number b xs * b ^ ys.length + number b ys := by
  rw [number, List.foldl_append, foldl_number]
  rfl

theorem number_cons (b d : ℕ) (digits : List ℕ) :
    number b (d :: digits) = d * b ^ digits.length + number b digits := by
  rw [number, List.foldl_cons, foldl_number, Nat.zero_mul, Nat.zero_add]

theorem number_concat (b d : ℕ) (digits : List ℕ) : number b (digits ++ [d]) = number b digits * b + d := by
  rw [number_append, List.length_singleton, pow_one, number_cons, number_nil]
  simp

theorem number_replicate_zero (b n : ℕ) (digits : List ℕ) :
    number b (List.replicate n 0 ++ digits) = number b digits := by
  induction n with
  | zero => rfl
  | succ n ih => rw [List.replicate_succ, List.cons_append, number_cons, Nat.zero_mul, Nat.zero_add, ih]

variable {digits xs ys : List ℕ} {d : ℕ}

theorem number_lt (h : ∀ d ∈ digits, d < b) : number b digits < b ^ digits.length := by
  induction digits with
  | nil => simp
  | cons d digits ih =>
    have hd := h d List.mem_cons_self
    have hrest := ih fun d hd => h d (List.mem_cons_of_mem _ hd)
    rw [number_cons, List.length_cons, pow_succ']
    calc d * b ^ digits.length + number b digits < d * b ^ digits.length + b ^ digits.length :=
          Nat.add_lt_add_left hrest _
      _ = (d + 1) * b ^ digits.length := by ring
      _ ≤ b * b ^ digits.length := Nat.mul_le_mul_right _ hd

theorem number_inj (hx : ∀ d ∈ xs, d < b) (hy : ∀ d ∈ ys, d < b) (hlen : xs.length = ys.length)
    (h : number b xs = number b ys) : xs = ys := by
  induction xs generalizing ys with
  | nil => exact (List.eq_nil_of_length_eq_zero hlen.symm).symm
  | cons x xs ih =>
    cases ys with
    | nil => simp at hlen
    | cons y ys =>
      have hxs := number_lt fun d hd => hx d (List.mem_cons_of_mem _ hd)
      have hys := number_lt fun d hd => hy d (List.mem_cons_of_mem _ hd)
      have htail : xs.length = ys.length := by simpa using hlen
      rw [number_cons, number_cons, ← htail] at h
      rw [← htail] at hys
      have hpos : 0 < b ^ xs.length := Nat.zero_lt_of_lt hxs
      have hhead : x = y := by
        have hxd : (x * b ^ xs.length + number b xs) / b ^ xs.length = x := by
          rw [Nat.add_comm, Nat.add_mul_div_right _ _ hpos, Nat.div_eq_of_lt hxs, Nat.zero_add]
        have hyd : (y * b ^ xs.length + number b ys) / b ^ xs.length = y := by
          rw [Nat.add_comm, Nat.add_mul_div_right _ _ hpos, Nat.div_eq_of_lt hys, Nat.zero_add]
        rw [← hxd, h, hyd]
      subst hhead
      rw [ih (fun d hd => hx d (List.mem_cons_of_mem _ hd)) (fun d hd => hy d (List.mem_cons_of_mem _ hd)) htail
        (Nat.add_left_cancel h)]

structure Canonical (b : ℕ) (digits : List ℕ) : Prop where
  small : ∀ d ∈ digits, d < b
  head : digits.head? ≠ some 0

theorem Canonical.nil (b : ℕ) : Canonical b [] := ⟨by simp, by simp⟩

theorem Canonical.cons (hd : d < b) (h0 : d ≠ 0) (h : ∀ d ∈ digits, d < b) :
    Canonical b (d :: digits) := by
  refine ⟨?_, by simpa using h0⟩
  intro e he
  rcases List.mem_cons.mp he with rfl | he
  · exact hd
  · exact h e he

theorem Canonical.concat (h : Canonical b digits) (hd : d < b) (hne : digits ≠ [] ∨ d ≠ 0) :
    Canonical b (digits ++ [d]) := by
  constructor
  · intro e he
    rcases List.mem_append.mp he with he | he
    · exact h.small e he
    · exact (List.mem_singleton.mp he) ▸ hd
  · cases digits with
    | nil => simpa using hne
    | cons e digits => simpa using h.head

theorem Canonical.pow_le (h : Canonical b (d :: digits)) : b ^ digits.length ≤ number b (d :: digits) := by
  have h0 : d ≠ 0 := by simpa using h.head
  rw [number_cons]
  exact le_trans (Nat.le_mul_of_pos_left _ (Nat.pos_of_ne_zero h0)) (Nat.le_add_right _ _)

theorem Canonical.length_le {k : ℕ} (h : Canonical b digits) (hlt : number b digits < b ^ k) : digits.length ≤ k := by
  cases digits with
  | nil => simp
  | cons d digits =>
    have hd := h.small d List.mem_cons_self
    have hpow := lt_of_le_of_lt h.pow_le hlt
    by_contra hlong
    rw [List.length_cons] at hlong
    exact absurd hpow (Nat.not_lt_of_le (Nat.pow_le_pow_right (by omega) (by omega)))

theorem Canonical.length_mono (hx : Canonical b xs) (hy : Canonical b ys) (h : number b xs ≤ number b ys) :
    xs.length ≤ ys.length :=
  hx.length_le (lt_of_le_of_lt h (number_lt hy.small))

theorem Canonical.unique (hx : Canonical b xs) (hy : Canonical b ys) (h : number b xs = number b ys) : xs = ys :=
  number_inj hx.small hy.small (le_antisymm (hx.length_mono hy h.le) (hy.length_mono hx h.ge)) h

theorem canonical_of_le (hsmall : ∀ e ∈ d :: digits, e < b) (h : b ^ digits.length ≤ number b (d :: digits)) :
    Canonical b (d :: digits) := by
  refine ⟨hsmall, ?_⟩
  intro h0
  have hd : d = 0 := by simpa using h0
  have hlt := number_lt fun e he => hsmall e (List.mem_cons_of_mem _ he)
  rw [number_cons, hd] at h
  omega

end AvilaNode.Radix
