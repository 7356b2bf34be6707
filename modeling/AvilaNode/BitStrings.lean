import Mathlib.Data.List.Basic
import Mathlib.Data.Nat.Bitwise
import Mathlib.Tactic.IntervalCases
import Mathlib.Tactic.Ring

/-! Bit strings over bytes, each byte's top bit first. -/

namespace BitStrings

def bit_at (bytes : List UInt8) (i : ℕ) : Bool := (bytes.getD (i / 8) 0).toNat.testBit (7 - i % 8)

def word_bits (data : ℕ) : ℕ → List Bool
  | 0 => []
  | n + 1 => data.testBit n :: word_bits data n

def word (bits : List Bool) : ℕ := bits.foldl (fun value bit => value * 2 + bit.toNat) 0

@[simp] theorem length_word_bits (data n : ℕ) : (word_bits data n).length = n := by
  induction n with
  | zero => rfl
  | succ n ih => rw [word_bits, List.length_cons, ih]

theorem word_from (bits : List Bool) (value : ℕ) :
    bits.foldl (fun value bit => value * 2 + bit.toNat) value = value * 2 ^ bits.length + word bits := by
  induction bits generalizing value with
  | nil => simp [word]
  | cons bit bits ih =>
    have hword : word (bit :: bits) = bit.toNat * 2 ^ bits.length + word bits := by
      rw [word, List.foldl_cons, ih]
      ring
    rw [List.foldl_cons, ih, hword, List.length_cons, pow_succ]
    ring

theorem word_cons (bit : Bool) (bits : List Bool) : word (bit :: bits) = bit.toNat * 2 ^ bits.length + word bits := by
  rw [word, List.foldl_cons, word_from]
  ring

theorem word_word_bits (data n : ℕ) : word (word_bits data n) = data % 2 ^ n := by
  induction n with
  | zero => simp [word_bits, word, Nat.mod_one]
  | succ n ih =>
    rw [word_bits, word_cons, length_word_bits, ih, Nat.toNat_testBit, Nat.mod_pow_succ]
    ring

theorem range_reverse_map (data n : ℕ) : (List.range n).reverse.map data.testBit = word_bits data n := by
  induction n with
  | zero => rfl
  | succ n ih => rw [List.range_succ, List.reverse_append, List.reverse_singleton, List.singleton_append,
    List.map_cons, ih,
      word_bits]

theorem bit_at_append_zero (bytes : List UInt8) (i : ℕ) : bit_at (bytes ++ [0]) i = bit_at bytes i := by
  unfold bit_at
  congr 2
  rw [List.getD_eq_getElem?_getD, List.getD_eq_getElem?_getD, List.getElem?_append]
  split
  · rfl
  · rename_i h
    rw [List.getElem?_eq_none (by omega : bytes.length ≤ i / 8)]
    cases i / 8 - bytes.length <;> rfl

theorem top_bit {u : ℕ} (h : u < 8) : (UInt8.ofNat (0x80 >>> u)).toNat = 2 ^ (7 - u) := by
  interval_cases u <;> rfl

variable {bytes : List UInt8}

theorem bit_at_set {k u : ℕ} (hk : k < bytes.length) (hu : u < 8) (i : ℕ) :
    bit_at (bytes.set k (bytes.getD k 0 ||| UInt8.ofNat (0x80 >>> u))) i
      = (decide (i = 8 * k + u) || bit_at bytes i) := by
  unfold bit_at
  by_cases hi : i / 8 = k
  · have hget : (bytes.set k (bytes.getD k 0 ||| UInt8.ofNat (0x80 >>> u))).getD (i / 8) 0
        = bytes.getD k 0 ||| UInt8.ofNat (0x80 >>> u) := by
      rw [List.getD_eq_getElem?_getD, hi, List.getElem?_set_self hk]
      rfl
    have hpos : decide (7 - u = 7 - i % 8) = decide (i = 8 * k + u) := by
      apply decide_eq_decide.mpr
      omega
    rw [hget, UInt8.toNat_or, Nat.testBit_or, top_bit hu, Nat.testBit_two_pow, hpos, hi, Bool.or_comm]
  · have hget : (bytes.set k (bytes.getD k 0 ||| UInt8.ofNat (0x80 >>> u))).getD (i / 8) 0 =
      bytes.getD (i / 8) 0 := by
      rw [List.getD_eq_getElem?_getD, List.getElem?_set_ne (Ne.symm hi), ← List.getD_eq_getElem?_getD]
    have hne : decide (i = 8 * k + u) = false := by
      apply decide_eq_false
      omega
    rw [hget, hne, Bool.false_or]

structure Ahead (bytes : List UInt8) (pos : ℕ) (bits : List Bool) : Prop where
  fits : pos + bits.length ≤ bytes.length * 8
  bits : ∀ i < bits.length, bit_at bytes (pos + i) = bits.getD i false

variable {front back : List Bool}

theorem Ahead.left {pos : ℕ} (h : Ahead bytes pos (front ++ back)) :
    Ahead bytes pos front := by
  have hlen := @List.length_append _ front back
  refine ⟨by have := h.fits; omega, fun i hi => ?_⟩
  rw [h.bits i (by omega), List.getD_append _ _ _ _ hi]

theorem Ahead.right {pos : ℕ} (h : Ahead bytes pos (front ++ back)) :
    Ahead bytes (pos + front.length) back := by
  have hlen := @List.length_append _ front back
  refine ⟨by have := h.fits; omega, fun i hi => ?_⟩
  rw [Nat.add_assoc, h.bits (front.length + i) (by omega), List.getD_append_right _ _ _ _ (by omega),
    Nat.add_sub_cancel_left]

end BitStrings
