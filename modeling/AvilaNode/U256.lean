import Mathlib.Data.Nat.Bitwise
import Mathlib.Data.Nat.Size
import Mathlib.Tactic.IntervalCases
import Mathlib.Tactic.Ring

/-! 256-bit integers as four limbs of 64 bits, and their arithmetic. -/

namespace AvilaNode

structure U256 where
  l0 : BitVec 64
  l1 : BitVec 64
  l2 : BitVec 64
  l3 : BitVec 64
deriving DecidableEq, Repr

namespace U256

def ZERO : U256 := ⟨0, 0, 0, 0⟩

def ONE : U256 := ⟨1, 0, 0, 0⟩

def from_u64 (v : BitVec 64) : U256 := ⟨v, 0, 0, 0⟩

def toNat (v : U256) : ℕ := v.l0.toNat + 2 ^ 64 * (v.l1.toNat + 2 ^ 64 * (v.l2.toNat + 2 ^ 64 * v.l3.toNat))

def limb (v : U256) : ℕ → BitVec 64
  | 0 => v.l0
  | 1 => v.l1
  | 2 => v.l2
  | 3 => v.l3
  | _ => 0

def or_limb (v : U256) (x : BitVec 64) : ℕ → U256
  | 0 => { v with l0 := v.l0 ||| x }
  | 1 => { v with l1 := v.l1 ||| x }
  | 2 => { v with l2 := v.l2 ||| x }
  | 3 => { v with l3 := v.l3 ||| x }
  | _ => v

def is_zero (v : U256) : Bool := v = ZERO

def low_u64 (v : U256) : BitVec 64 := v.l0

def leading_zeros (x : BitVec 64) : ℕ := 64 - x.toNat.size

def bits (v : U256) : ℕ :=
  if v.l3 ≠ 0 then 3 * 64 + (64 - leading_zeros v.l3)
  else if v.l2 ≠ 0 then 2 * 64 + (64 - leading_zeros v.l2)
  else if v.l1 ≠ 0 then 1 * 64 + (64 - leading_zeros v.l1)
  else if v.l0 ≠ 0 then 0 * 64 + (64 - leading_zeros v.l0)
  else 0

def overflowing_add (a b : BitVec 64) : BitVec 64 × Bool := (a + b, decide (2 ^ 64 ≤ a.toNat + b.toNat))

def overflowing_sub (a b : BitVec 64) : BitVec 64 × Bool := (a - b, decide (a.toNat < b.toNat))

def add_limb (a b carry : BitVec 64) : BitVec 64 × BitVec 64 :=
  let sum1 := overflowing_add a b
  let sum2 := overflowing_add sum1.1 carry
  (sum2.1, BitVec.ofNat 64 (sum1.2.toNat + sum2.2.toNat))

def sub_limb (a b borrow : BitVec 64) : BitVec 64 × BitVec 64 :=
  let diff1 := overflowing_sub a b
  let diff2 := overflowing_sub diff1.1 borrow
  (diff2.1, BitVec.ofNat 64 (diff1.2.toNat + diff2.2.toNat))

def adc (a b : U256) : U256 × Bool :=
  let s0 := add_limb a.l0 b.l0 0
  let s1 := add_limb a.l1 b.l1 s0.2
  let s2 := add_limb a.l2 b.l2 s1.2
  let s3 := add_limb a.l3 b.l3 s2.2
  (⟨s0.1, s1.1, s2.1, s3.1⟩, s3.2 ≠ 0)

def sbb (a b : U256) : U256 × Bool :=
  let d0 := sub_limb a.l0 b.l0 0
  let d1 := sub_limb a.l1 b.l1 d0.2
  let d2 := sub_limb a.l2 b.l2 d1.2
  let d3 := sub_limb a.l3 b.l3 d2.2
  (⟨d0.1, d1.1, d2.1, d3.1⟩, d3.2 ≠ 0)

def checked_add (a b : U256) : Option U256 := if (a.adc b).2 then none else some (a.adc b).1

def wrapping_add (a b : U256) : U256 := (a.adc b).1

def wrapping_sub (a b : U256) : U256 := (a.sbb b).1

def le (a b : U256) : Bool :=
  if a.l3 ≠ b.l3 then a.l3 < b.l3
  else if a.l2 ≠ b.l2 then a.l2 < b.l2
  else if a.l1 ≠ b.l1 then a.l1 < b.l1
  else a.l0 ≤ b.l0

def shl (v : U256) (shift : ℕ) : U256 :=
  if 256 ≤ shift then ZERO
  else
    let word_shift := shift / 64
    let bit_shift := shift % 64
    (List.range 4).foldl (fun result i =>
      let dest := i + word_shift
      let result := if dest < 4 then result.or_limb (v.limb i <<< bit_shift) dest else result
      if bit_shift ≠ 0 ∧ dest + 1 < 4 then result.or_limb (v.limb i >>> (64 - bit_shift)) (dest + 1) else result) ZERO

def shr (v : U256) (shift : ℕ) : U256 :=
  if 256 ≤ shift then ZERO
  else
    let word_shift := shift / 64
    let bit_shift := shift % 64
    (List.range 4).foldl (fun result i =>
      let result := if word_shift ≤ i then result.or_limb (v.limb i >>> bit_shift) (i - word_shift) else result
      if bit_shift ≠ 0 ∧ word_shift + 1 ≤ i then
        result.or_limb (v.limb i <<< (64 - bit_shift)) (i - (word_shift + 1))
      else result) ZERO

def not (v : U256) : U256 := ⟨~~~v.l0, ~~~v.l1, ~~~v.l2, ~~~v.l3⟩

def div_turn (shift : ℕ) (divisor remainder quotient : U256) : U256 × U256 :=
  if divisor.le remainder then
    (quotient.or_limb ((1 : BitVec 64) <<< (shift % 64)) (shift / 64), remainder.wrapping_sub divisor)
  else (quotient, remainder)

def div_loop : ℕ → U256 → U256 → U256 → U256 × U256
  | 0, divisor, remainder, quotient => div_turn 0 divisor remainder quotient
  | shift + 1, divisor, remainder, quotient =>
    let turn := div_turn (shift + 1) divisor remainder quotient
    div_loop shift (divisor.shr 1) turn.2 turn.1

def div_rem (a b : U256) : Option (U256 × U256) :=
  if b.is_zero then none
  else if a.bits < b.bits then some (ZERO, a)
  else some (div_loop (a.bits - b.bits) (b.shl (a.bits - b.bits)) a ZERO)

variable (v : U256) {divisor remainder quotient : U256}

theorem toNat_lt : v.toNat < 2 ^ 256 := by
  unfold toNat
  omega

theorem toNat_eq_zero {v : U256} : v.toNat = 0 ↔ v.is_zero := by
  rw [is_zero, decide_eq_true_iff]
  constructor
  · intro h
    unfold toNat at h
    have h0 : v.l0 = 0 := BitVec.eq_of_toNat_eq (by change _ = 0; omega)
    have h1 : v.l1 = 0 := BitVec.eq_of_toNat_eq (by change _ = 0; omega)
    have h2 : v.l2 = 0 := BitVec.eq_of_toNat_eq (by change _ = 0; omega)
    have h3 : v.l3 = 0 := BitVec.eq_of_toNat_eq (by change _ = 0; omega)
    obtain ⟨l0, l1, l2, l3⟩ := v
    subst h0 h1 h2 h3
    rfl
  · rintro rfl
    rfl

theorem toNat_from_u64 (v : BitVec 64) : (from_u64 v).toNat = v.toNat := rfl

variable {j shift : ℕ}

theorem limb_of_le (h : 4 ≤ j) : v.limb j = 0 := by
  obtain ⟨k, rfl⟩ := Nat.exists_eq_add_of_le h
  rw [Nat.add_comm]
  rfl

theorem testBit_toNat (i : ℕ) : v.toNat.testBit i = (v.limb (i / 64)).getLsbD (i % 64) := by
  have hbit (lo : BitVec 64) (hi i : ℕ) :
      (lo.toNat + 2 ^ 64 * hi).testBit i = if i < 64 then lo.getLsbD i else hi.testBit (i - 64) := by
    rw [Nat.add_comm, Nat.testBit_two_pow_mul_add hi lo.isLt]
    rfl
  have hlast (i : ℕ) (h : 256 ≤ i) : v.l3.toNat.testBit (i - 64 - 64 - 64) = false :=
    BitVec.getLsbD_of_ge v.l3 _ (by omega)
  rw [toNat, hbit, hbit, hbit]
  split_ifs with h0 h1 h2
  · rw [Nat.div_eq_of_lt h0, Nat.mod_eq_of_lt h0]
    rfl
  · have hd : i / 64 = 1 := by omega
    have hm : i % 64 = i - 64 := by omega
    rw [hd, hm]
    rfl
  · have hd : i / 64 = 2 := by omega
    have hm : i % 64 = i - 64 - 64 := by omega
    rw [hd, hm]
    rfl
  · by_cases h3 : i < 256
    · have hd : i / 64 = 3 := by omega
      have hm : i % 64 = i - 64 - 64 - 64 := by omega
      rw [hd, hm]
      rfl
    · rw [hlast i (by omega), limb_of_le v (by omega)]
      simp

theorem limb_or_limb (x : BitVec 64) {i : ℕ} (hj : j < 4) :
    (v.or_limb x j).limb i = if i = j then v.limb i ||| x else v.limb i := by
  by_cases hi : i < 4
  · interval_cases j <;> interval_cases i <;> rfl
  · rw [limb_of_le _ (by omega), limb_of_le v (by omega), if_neg (by omega)]

theorem limb_shl (h : shift < 256) (hj : j < 4) : (v.shl shift).limb j =
      (if shift % 64 ≠ 0 ∧ shift / 64 + 1 ≤ j then v.limb (j - (shift / 64 + 1)) >>> (64 - shift % 64) else 0) |||
        if shift / 64 ≤ j then v.limb (j - shift / 64) <<< (shift % 64) else 0 := by
  rw [shl, if_neg (by omega), show List.range 4 = [0, 1, 2, 3] from rfl]
  have hw : shift / 64 < 4 := by omega
  generalize shift / 64 = word_shift at hw
  generalize shift % 64 = bit_shift
  by_cases hb : bit_shift = 0 <;> interval_cases word_shift <;>
    simp only [List.foldl_cons, List.foldl_nil, hb, ne_eq, not_true_eq_false, not_false_eq_true, false_and, true_and,
      if_false, if_true, Nat.reduceAdd, Nat.reduceLT, or_limb, ZERO] <;>
    interval_cases j <;> simp [limb]

theorem limb_shr (h : shift < 256) (hj : j < 4) :
    (v.shr shift).limb j = v.limb (j + shift / 64) >>> (shift % 64) |||
      if shift % 64 ≠ 0 then v.limb (j + (shift / 64 + 1)) <<< (64 - shift % 64) else 0 := by
  rw [shr, if_neg (by omega), show List.range 4 = [0, 1, 2, 3] from rfl]
  have hw : shift / 64 < 4 := by omega
  generalize shift / 64 = word_shift at hw
  generalize shift % 64 = bit_shift
  by_cases hb : bit_shift = 0 <;> interval_cases word_shift <;>
    simp only [List.foldl_cons, List.foldl_nil, hb, ne_eq, not_true_eq_false, not_false_eq_true, false_and, true_and,
      if_false, if_true, Nat.reduceAdd, Nat.reduceLeDiff, Nat.reduceSub, or_limb, ZERO] <;>
    interval_cases j <;> simp [limb]

theorem toNat_shl (shift : ℕ) : (v.shl shift).toNat = v.toNat <<< shift % 2 ^ 256 := by
  by_cases h : 256 ≤ shift
  · rw [shl, if_pos h, Nat.shiftLeft_eq, Nat.mod_eq_zero_of_dvd ((pow_dvd_pow 2 h).mul_left _)]
    rfl
  apply Nat.eq_of_testBit_eq
  intro i
  rw [Nat.testBit_mod_two_pow, Nat.testBit_shiftLeft, testBit_toNat, testBit_toNat]
  by_cases hi : i < 256
  · rw [limb_shl v (by omega) (by omega), BitVec.getLsbD_or, decide_eq_true hi, Bool.true_and]
    have hb := Nat.mod_lt i (show 0 < 64 by omega)
    by_cases hle : shift % 64 ≤ i % 64
    · have hnone (x : BitVec 64) (hs : shift % 64 ≠ 0) : (x >>> (64 - shift % 64)).getLsbD (i % 64) = false := by
        rw [BitVec.getLsbD_ushiftRight]
        exact BitVec.getLsbD_of_ge _ _ (by omega)
      have hfirst : ((if shift % 64 ≠ 0 ∧ shift / 64 + 1 ≤ i / 64
          then v.limb (i / 64 - (shift / 64 + 1)) >>> (64 - shift % 64) else 0).getLsbD (i % 64)) = false := by
        split_ifs with hc
        · exact hnone _ hc.1
        · simp
      rw [hfirst, Bool.false_or]
      by_cases hw : shift / 64 ≤ i / 64
      · have hd : (i - shift) / 64 = i / 64 - shift / 64 := by omega
        have hm : (i - shift) % 64 = i % 64 - shift % 64 := by omega
        rw [if_pos hw, BitVec.getLsbD_shiftLeft, hd, hm]
        simp [hb, hle, show shift ≤ i by omega]
      · rw [if_neg hw]
        simp [show ¬shift ≤ i by omega]
    · have hsecond : ((if shift / 64 ≤ i / 64 then v.limb (i / 64 - shift / 64) <<< (shift % 64) else 0).getLsbD
          (i % 64)) = false := by
        split_ifs
        · rw [BitVec.getLsbD_shiftLeft]
          simp [show i % 64 < shift % 64 by omega]
        · simp
      rw [hsecond, Bool.or_false]
      by_cases hw : shift / 64 + 1 ≤ i / 64
      · have hd : (i - shift) / 64 = i / 64 - (shift / 64 + 1) := by omega
        have hm : (i - shift) % 64 = 64 - shift % 64 + i % 64 := by omega
        rw [if_pos ⟨by omega, hw⟩, BitVec.getLsbD_ushiftRight, hd, hm]
        simp [show shift ≤ i by omega]
      · rw [if_neg (by omega)]
        simp [show ¬shift ≤ i by omega]
  · rw [limb_of_le _ (by omega), decide_eq_false hi, Bool.false_and]
    simp

theorem toNat_shr (shift : ℕ) : (v.shr shift).toNat = v.toNat >>> shift := by
  by_cases h : 256 ≤ shift
  · have hlt : v.toNat < 2 ^ shift := lt_of_lt_of_le v.toNat_lt (Nat.pow_le_pow_right (by omega) h)
    rw [shr, if_pos h, Nat.shiftRight_eq_div_pow, Nat.div_eq_of_lt hlt]
    rfl
  apply Nat.eq_of_testBit_eq
  intro i
  rw [Nat.testBit_shiftRight, testBit_toNat, testBit_toNat]
  by_cases hi : i < 256
  · rw [limb_shr v (by omega) (by omega), BitVec.getLsbD_or, BitVec.getLsbD_ushiftRight]
    have hb := Nat.mod_lt i (show 0 < 64 by omega)
    by_cases hle : shift % 64 + i % 64 < 64
    · have hsecond : ((if shift % 64 ≠ 0 then v.limb (i / 64 + (shift / 64 + 1)) <<< (64 - shift % 64)
          else 0).getLsbD (i % 64)) = false := by
        split_ifs with hc
        · rw [BitVec.getLsbD_shiftLeft]
          simp [show i % 64 < 64 - shift % 64 by omega]
        · simp
      have hd : (shift + i) / 64 = i / 64 + shift / 64 := by omega
      have hm : (shift + i) % 64 = shift % 64 + i % 64 := by omega
      rw [hsecond, Bool.or_false, hd, hm]
    · have hd : (shift + i) / 64 = i / 64 + (shift / 64 + 1) := by omega
      have hm : (shift + i) % 64 = i % 64 - (64 - shift % 64) := by omega
      rw [if_pos (by omega), BitVec.getLsbD_shiftLeft, BitVec.getLsbD_of_ge _ _ (by omega), Bool.false_or, hd, hm]
      simp [hb, show ¬i % 64 < 64 - shift % 64 by omega]
  · rw [limb_of_le _ (by omega), limb_of_le v (by omega)]
    simp

theorem add_limb_spec (a b carry : BitVec 64) (hc : carry.toNat ≤ 1) :
    (add_limb a b carry).1.toNat + 2 ^ 64 * (add_limb a b carry).2.toNat = a.toNat + b.toNat + carry.toNat ∧
      (add_limb a b carry).2.toNat ≤ 1 := by
  rw [add_limb, overflowing_add, overflowing_add]
  simp only [BitVec.toNat_add, BitVec.toNat_ofNat]
  by_cases h1 : 2 ^ 64 ≤ a.toNat + b.toNat <;>
    by_cases h2 : 2 ^ 64 ≤ (a.toNat + b.toNat) % 2 ^ 64 + carry.toNat <;>
    simp only [h1, h2, decide_true, decide_false, Bool.toNat_true, Bool.toNat_false] <;> omega

theorem sub_limb_spec (a b borrow : BitVec 64) (hc : borrow.toNat ≤ 1) :
    (sub_limb a b borrow).1.toNat + b.toNat + borrow.toNat = a.toNat + 2 ^ 64 * (sub_limb a b borrow).2.toNat ∧
      (sub_limb a b borrow).2.toNat ≤ 1 := by
  rw [sub_limb, overflowing_sub, overflowing_sub]
  simp only [BitVec.toNat_sub, BitVec.toNat_ofNat]
  by_cases h1 : a.toNat < b.toNat <;>
    by_cases h2 : (2 ^ 64 - b.toNat + a.toNat) % 2 ^ 64 < borrow.toNat <;>
    simp only [h1, h2, decide_true, decide_false, Bool.toNat_true, Bool.toNat_false] <;> omega

theorem adc_spec (a b : U256) :
    (a.adc b).1.toNat + 2 ^ 256 * (a.adc b).2.toNat = a.toNat + b.toNat := by
  obtain ⟨h0, c0⟩ := add_limb_spec a.l0 b.l0 0 (by decide)
  obtain ⟨h1, c1⟩ := add_limb_spec a.l1 b.l1 _ c0
  obtain ⟨h2, c2⟩ := add_limb_spec a.l2 b.l2 _ c1
  obtain ⟨h3, c3⟩ := add_limb_spec a.l3 b.l3 _ c2
  have hz : (0 : BitVec 64).toNat = 0 := rfl
  rw [hz] at h0
  have hlast : (a.adc b).2.toNat = (add_limb a.l3 b.l3 (add_limb a.l2 b.l2
      (add_limb a.l1 b.l1 (add_limb a.l0 b.l0 0).2).2).2).2.toNat := by
    rw [adc]
    generalize (add_limb a.l3 b.l3 _).2 = carry at c3 ⊢
    have hcarry : carry = 0 ∨ carry = 1 := by
      rcases Nat.le_one_iff_eq_zero_or_eq_one.mp c3 with h | h
      · exact Or.inl (BitVec.eq_of_toNat_eq h)
      · exact Or.inr (BitVec.eq_of_toNat_eq h)
    rcases hcarry with rfl | rfl <;> rfl
  rw [hlast]
  simp only [toNat, adc]
  omega

theorem toNat_wrapping_sub {a b : U256} (h : b.toNat ≤ a.toNat) : (a.wrapping_sub b).toNat = a.toNat - b.toNat := by
  obtain ⟨h0, c0⟩ := sub_limb_spec a.l0 b.l0 0 (by decide)
  obtain ⟨h1, c1⟩ := sub_limb_spec a.l1 b.l1 _ c0
  obtain ⟨h2, c2⟩ := sub_limb_spec a.l2 b.l2 _ c1
  obtain ⟨h3, c3⟩ := sub_limb_spec a.l3 b.l3 _ c2
  have hz : (0 : BitVec 64).toNat = 0 := rfl
  rw [hz] at h0
  have hlt := (a.wrapping_sub b).toNat_lt
  simp only [toNat, wrapping_sub, sbb] at h hlt ⊢
  omega

theorem checked_add_eq (a b : U256) (h : a.toNat + b.toNat < 2 ^ 256) :
    ∃ s, a.checked_add b = some s ∧ s.toNat = a.toNat + b.toNat := by
  have hs := adc_spec a b
  have hf : (a.adc b).2 = false := by
    cases hc : (a.adc b).2 with
    | false => rfl
    | true =>
      rw [hc, Bool.toNat_true] at hs
      omega
  refine ⟨_, by rw [checked_add, hf]; rfl, ?_⟩
  rw [hf, Bool.toNat_false] at hs
  omega

theorem toNat_wrapping_add {a b : U256} (h : a.toNat + b.toNat < 2 ^ 256) :
    (a.wrapping_add b).toNat = a.toNat + b.toNat := by
  have hs := adc_spec a b
  have hlt := (a.wrapping_add b).toNat_lt
  rw [wrapping_add] at hlt ⊢
  cases hc : (a.adc b).2 with
  | false =>
    rw [hc, Bool.toNat_false] at hs
    omega
  | true =>
    rw [hc, Bool.toNat_true] at hs
    omega

theorem toNat_not : v.not.toNat = 2 ^ 256 - 1 - v.toNat := by
  simp only [toNat, not, BitVec.toNat_not]
  omega

theorem le_iff (a b : U256) : a.le b ↔ a.toNat ≤ b.toNat := by
  unfold le toNat
  split_ifs with h3 h2 h1
  · rw [decide_eq_true_iff, BitVec.lt_def]
    have := mt BitVec.eq_of_toNat_eq h3
    omega
  · rw [decide_eq_true_iff, BitVec.lt_def, not_not.mp h3]
    have := mt BitVec.eq_of_toNat_eq h2
    omega
  · rw [decide_eq_true_iff, BitVec.lt_def, not_not.mp h3, not_not.mp h2]
    have := mt BitVec.eq_of_toNat_eq h1
    omega
  · rw [decide_eq_true_iff, BitVec.le_def, not_not.mp h3, not_not.mp h2, not_not.mp h1]
    omega

theorem size_high (w lo : ℕ) {hi : ℕ} (hlo : lo < 2 ^ w) (hhi : hi ≠ 0) : (lo + 2 ^ w * hi).size = w + hi.size := by
  apply le_antisymm
  · rw [Nat.size_le, pow_add]
    calc lo + 2 ^ w * hi < 2 ^ w * (hi + 1) := by rw [Nat.mul_add, Nat.mul_one]; omega
      _ ≤ 2 ^ w * 2 ^ hi.size := Nat.mul_le_mul_left _ (Nat.lt_size_self hi)
  · obtain ⟨m, hm⟩ := Nat.exists_eq_succ_of_ne_zero (Nat.size_pos.mpr (Nat.pos_of_ne_zero hhi)).ne'
    have hle : 2 ^ m ≤ hi := Nat.lt_size.mp (by omega)
    rw [hm, ← Nat.add_one, ← Nat.add_assoc]
    apply Nat.lt_size.mpr
    rw [pow_add]
    exact le_trans (Nat.mul_le_mul_left _ hle) (Nat.le_add_left _ _)

theorem bits_eq : v.bits = v.toNat.size := by
  have hlead (x : BitVec 64) : 64 - leading_zeros x = x.toNat.size := by
    have := Nat.size_le.mpr x.isLt
    rw [leading_zeros]
    omega
  have hne {x : BitVec 64} (h : x ≠ 0) : x.toNat ≠ 0 := fun h0 => h (BitVec.eq_of_toNat_eq h0)
  have hzero : (0 : BitVec 64).toNat = 0 := rfl
  have h0 := v.l0.isLt
  rw [bits]
  simp only [hlead]
  split_ifs with h3' h2' h1' h0'
  · have hv : v.toNat = (v.l0.toNat + 2 ^ 64 * (v.l1.toNat + 2 ^ 64 * v.l2.toNat)) + 2 ^ 192 * v.l3.toNat := by
      unfold toNat
      ring
    rw [hv, size_high 192 _ (by omega) (hne h3')]
  · have hv : v.toNat = (v.l0.toNat + 2 ^ 64 * v.l1.toNat) + 2 ^ 128 * v.l2.toNat := by
      rw [toNat, not_not.mp h3', hzero]
      ring
    rw [hv, size_high 128 _ (by omega) (hne h2')]
  · have hv : v.toNat = v.l0.toNat + 2 ^ 64 * v.l1.toNat := by
      rw [toNat, not_not.mp h3', not_not.mp h2', hzero]
      ring
    rw [hv, size_high 64 _ h0 (hne h1')]
  · have hv : v.toNat = v.l0.toNat := by
      rw [toNat, not_not.mp h3', not_not.mp h2', not_not.mp h1', hzero]
      rfl
    rw [hv, Nat.zero_mul, Nat.zero_add]
  · have hv : v.toNat = 0 := by
      rw [toNat, not_not.mp h3', not_not.mp h2', not_not.mp h1', not_not.mp h0']
      rfl
    rw [hv, Nat.size_zero]

theorem toNat_or_bit (q : U256) (hs : shift < 256) (hq : 2 ^ (shift + 1) ∣ q.toNat) :
    (q.or_limb ((1 : BitVec 64) <<< (shift % 64)) (shift / 64)).toNat = q.toNat + 2 ^ shift := by
  obtain ⟨k, hk⟩ := hq
  apply Nat.eq_of_testBit_eq
  intro i
  have hsum : q.toNat + 2 ^ shift = 2 ^ shift * (2 * k + 1) := by
    rw [hk]
    ring
  have hbit : q.toNat.testBit i = (decide (shift ≤ i) && (2 * k).testBit (i - shift)) := by
    rw [hk, pow_succ, Nat.mul_assoc, Nat.testBit_two_pow_mul]
  rw [testBit_toNat, hsum, Nat.testBit_two_pow_mul, limb_or_limb _ _ (by omega)]
  by_cases hi : i = shift
  · subst hi
    rw [if_pos rfl, BitVec.getLsbD_or, BitVec.getLsbD_shiftLeft]
    simp [Nat.mod_lt]
  · have hodd : (decide (shift ≤ i) && (2 * k + 1).testBit (i - shift)) = q.toNat.testBit i := by
      rw [hbit]
      by_cases hle : shift ≤ i
      · obtain ⟨j, hj⟩ := Nat.exists_eq_succ_of_ne_zero (show i - shift ≠ 0 by omega)
        rw [hj, Nat.testBit_succ, Nat.testBit_succ]
        congr 2
        omega
      · simp [hle]
    rw [hodd, testBit_toNat]
    split_ifs with hj
    · have hm : ¬i % 64 = shift % 64 := by omega
      have hone : ((1 : BitVec 64) <<< (shift % 64)).getLsbD (i % 64) = false := by
        rw [BitVec.getLsbD_shiftLeft]
        by_cases hlt : i % 64 < shift % 64
        · simp [hlt]
        have hone : BitVec.getLsbD (1 : BitVec 64) (i % 64 - shift % 64) = false := by
          change (1#64).getLsbD _ = false
          rw [BitVec.getLsbD_one]
          simp [show i % 64 - shift % 64 ≠ 0 by omega]
        rw [hone, Bool.and_false]
      rw [BitVec.getLsbD_or, hone, Bool.or_false]
    · rfl

structure Dividing (a b shift divisor remainder quotient : ℕ) : Prop where
  divisor_eq : divisor = b * 2 ^ shift
  exact : a = quotient * b + remainder
  small : remainder < b * 2 ^ (shift + 1)
  high : 2 ^ (shift + 1) ∣ quotient

theorem Dividing.turn {a b : ℕ} (hs : shift < 256)
    (h : Dividing a b shift divisor.toNat remainder.toNat quotient.toNat) :
    a = (div_turn shift divisor remainder quotient).1.toNat * b +
      (div_turn shift divisor remainder quotient).2.toNat ∧
      (div_turn shift divisor remainder quotient).2.toNat < b * 2 ^ shift ∧
      2 ^ shift ∣ (div_turn shift divisor remainder quotient).1.toNat := by
  have hhalf : (2 : ℕ) ^ shift ∣ 2 ^ (shift + 1) := pow_dvd_pow 2 (by omega)
  rw [div_turn]
  split_ifs with hle
  · rw [le_iff] at hle
    rw [toNat_or_bit _ hs h.high, toNat_wrapping_sub hle, h.divisor_eq]
    have hd := h.divisor_eq
    have hsmall := h.small
    have hexact := h.exact
    rw [pow_succ, ← Nat.mul_assoc, Nat.mul_two] at hsmall
    refine ⟨?_, by omega, Nat.dvd_add (hhalf.trans h.high) (dvd_refl _)⟩
    have hmul : (quotient.toNat + 2 ^ shift) * b = quotient.toNat * b + b * 2 ^ shift := by ring
    omega
  · rw [le_iff, h.divisor_eq] at hle
    exact ⟨h.exact, Nat.lt_of_not_le hle, hhalf.trans h.high⟩

theorem Dividing.loop {a b : ℕ} (hs : shift < 256)
    (h : Dividing a b shift divisor.toNat remainder.toNat quotient.toNat) :
    a = (div_loop shift divisor remainder quotient).1.toNat * b +
      (div_loop shift divisor remainder quotient).2.toNat ∧
      (div_loop shift divisor remainder quotient).2.toNat < b := by
  induction shift generalizing divisor remainder quotient with
  | zero =>
    obtain ⟨hexact, hsmall, -⟩ := h.turn hs
    rw [pow_zero, Nat.mul_one] at hsmall
    exact ⟨hexact, hsmall⟩
  | succ shift ih =>
    obtain ⟨hexact, hsmall, hhigh⟩ := h.turn hs
    apply ih (by omega)
    refine ⟨?_, hexact, hsmall, hhigh⟩
    rw [toNat_shr, h.divisor_eq, pow_succ, ← Nat.mul_assoc, Nat.shiftRight_eq_div_pow, pow_one,
      Nat.mul_div_cancel _ (by omega)]

theorem div_rem_spec (a : U256) {b : U256} (hb : b.toNat ≠ 0) :
    ∃ q r, a.div_rem b = some (q, r) ∧ a.toNat = q.toNat * b.toNat + r.toNat ∧ r.toNat < b.toNat := by
  have hz : b.is_zero = false := Bool.eq_false_iff.mpr (mt toNat_eq_zero.mpr hb)
  rw [div_rem, hz]
  have hpos : 0 < b.toNat.size := Nat.size_pos.mpr (Nat.pos_of_ne_zero hb)
  have hlow : 2 ^ (b.toNat.size - 1) ≤ b.toNat := Nat.lt_size.mp (by omega)
  have ha := Nat.lt_size_self a.toNat
  by_cases hlt : a.bits < b.bits
  · refine ⟨ZERO, a, by simp [hlt], ?_, ?_⟩
    · change a.toNat = 0 * _ + _
      omega
    · rw [bits_eq, bits_eq] at hlt
      exact lt_of_lt_of_le ha (le_trans (Nat.pow_le_pow_right (by omega) (by omega)) hlow)
  · refine ⟨_, _, by simp [hlt]; rfl, ?_⟩
    rw [bits_eq, bits_eq] at hlt ⊢
    have hsize : a.toNat.size ≤ 256 := Nat.size_le.mpr a.toNat_lt
    apply Dividing.loop (by omega)
    refine ⟨?_, ?_, ?_, ⟨0, rfl⟩⟩
    · rw [toNat_shl, Nat.shiftLeft_eq, Nat.mod_eq_of_lt]
      have hb' := Nat.lt_size_self b.toNat
      have hpow : 2 ^ b.toNat.size * 2 ^ (a.toNat.size - b.toNat.size) ≤ 2 ^ 256 := by
        rw [← pow_add]
        exact Nat.pow_le_pow_right (by omega) (by omega)
      exact lt_of_lt_of_le (Nat.mul_lt_mul_of_pos_right hb' (by positivity)) hpow
    · change _ = 0 * _ + _
      omega
    · have hpow : 2 ^ a.toNat.size = 2 ^ (b.toNat.size - 1) * 2 ^ (a.toNat.size - b.toNat.size + 1) := by
        rw [← pow_add]
        congr 1
        omega
      exact lt_of_lt_of_le ha (hpow ▸ Nat.mul_le_mul_right _ hlow)

end U256

end AvilaNode
