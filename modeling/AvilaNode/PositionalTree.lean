import AvilaNode.MerkleTree
import Mathlib.Algebra.Group.Nat.Defs

/-! The nodes of such a tree by height and position. -/

namespace AvilaNode.MerkleTree

variable {α : Type}

def width (n height : ℕ) : ℕ := (n + 2 ^ height - 1) / 2 ^ height

@[simp] theorem width_zero (n : ℕ) : width n 0 = n := by simp [width]

theorem width_succ (n height : ℕ) : width n (height + 1) = (width n height + 1) / 2 := by
  have hp : 0 < 2 ^ height := Nat.two_pow_pos height
  unfold width
  rw [← Nat.add_div_right _ hp, Nat.div_div_eq_div_mul, Nat.pow_succ]
  congr 1
  omega

theorem lt_width {n height pos : ℕ} : pos < width n height ↔ pos * 2 ^ height < n := by
  have hp : 0 < 2 ^ height := Nat.two_pow_pos height
  rw [width, ← Nat.succ_le_iff, Nat.le_div_iff_mul_le hp, Nat.succ_mul]
  omega

theorem left_lt_width {n height pos : ℕ} (h : pos < width n (height + 1)) : pos * 2 < width n height := by
  rw [width_succ] at h
  omega

section

variable (hash : α × α → α) (leaf : ℕ → α) (n : ℕ)

def node : ℕ → ℕ → α
  | 0, pos => leaf pos
  | height + 1, pos =>
    let left := node height (pos * 2)
    hash (left, if pos * 2 + 1 < width n height then node height (pos * 2 + 1) else left)

def children (height pos : ℕ) : α × α :=
  (node hash leaf n height (pos * 2),
    if pos * 2 + 1 < width n height then node hash leaf n height (pos * 2 + 1) else node hash leaf n height (pos * 2))

def level (height : ℕ) : List α := (List.range (width n height)).map (node hash leaf n height)

end

variable {hash : α × α → α} {leaf : ℕ → α} {n : ℕ}

@[simp] theorem length_level (height : ℕ) : (level hash leaf n height).length = width n height := by
  simp [level]

theorem pairs_range (f : ℕ → α) (start count : ℕ) : pairs ((List.range' start count).map f) =
    (List.range ((count + 1) / 2)).map fun pos =>
      (f (start + pos * 2), if pos * 2 + 1 < count then f (start + (pos * 2 + 1)) else f (start + pos * 2)) := by
  induction count using Nat.strong_induction_on generalizing start with
  | _ count ih =>
    match count with
    | 0 => rfl
    | 1 => simp
    | count + 2 =>
      have hhalf : (count + 2 + 1) / 2 = (count + 1) / 2 + 1 := by omega
      rw [List.range'_succ, List.range'_succ, List.map_cons, List.map_cons, pairs_cons, ih count (by omega), hhalf,
        List.range_succ_eq_map, List.map_cons, List.map_map]
      simp only [Nat.zero_mul, Nat.add_zero, Nat.zero_add, Function.comp_def, Nat.succ_eq_add_one]
      rw [if_pos (by omega)]
      congr 1
      apply List.map_congr_left
      intro pos _
      rw [show start + 1 + 1 + pos * 2 = start + (pos + 1) * 2 by omega,
        show start + 1 + 1 + (pos * 2 + 1) = start + ((pos + 1) * 2 + 1) by omega]
      simp only [show (pos + 1) * 2 + 1 < count + 2 ↔ pos * 2 + 1 < count by omega]

theorem pairs_level (height : ℕ) : pairs (level hash leaf n height) =
    (List.range (width n (height + 1))).map (children hash leaf n height) := by
  rw [level, List.range_eq_range', pairs_range, width_succ]
  simp only [Nat.zero_add]
  rfl

theorem level_succ (height : ℕ) : (pairs (level hash leaf n height)).map hash = level hash leaf n (height + 1) := by
  rw [pairs_level, List.map_map]
  rfl

theorem node_ne {known : Set (α × α)} (hh : Set.InjOn hash known) {top : ℕ}
    (hk : ∀ height < top, ∀ pos < width n (height + 1), children hash leaf n height pos ∈ known)
    (hd : ∀ i < n, ∀ j < n, leaf i = leaf j → i = j) {height : ℕ} (ht : height ≤ top) {p q : ℕ}
    (hp : p < width n height) (hq : q < width n height) (h : node hash leaf n height p = node hash leaf n height q) :
    p = q := by
  induction height generalizing p q with
  | zero => exact hd p (by simpa using hp) q (by simpa using hq) h
  | succ height ih =>
    have hc := hh (hk height (by omega) p hp) (hk height (by omega) q hq) h
    have := ih (by omega) (left_lt_width hp) (left_lt_width hq) (congrArg Prod.fst hc)
    omega

end AvilaNode.MerkleTree
