import AvilaNode.Pow
import AvilaNode.U256

/-! Compact targets over limbs: what they expand to, how a target is encoded, and the work of one. -/

namespace AvilaNode

def CompactTarget.mantissa (bits : CompactTarget) : ℕ := bits.toNat &&& 0x007fffff

def CompactTarget.exponent (bits : CompactTarget) : ℕ := bits.toNat >>> 24

namespace Arith

structure ExpandedTarget where
  value : U256
  negative : Bool
  overflow : Bool
deriving DecidableEq, Repr

def expand (bits : CompactTarget) : ExpandedTarget :=
  let compact := bits.toNat
  let size := compact >>> 24
  let word := compact &&& 0x007fffff
  let shifted := if size ≤ 3 then word >>> (8 * (3 - size)) else word
  { value := if size ≤ 3 then U256.from_u64 (BitVec.ofNat 64 shifted)
      else (U256.from_u64 (BitVec.ofNat 64 word)).shl (8 * (size - 3))
    negative := shifted != 0 && compact &&& 0x00800000 != 0
    overflow := shifted != 0 && (decide (34 < size) || (decide (0xff < shifted) && decide (33 < size))
      || (decide (0xffff < shifted) && decide (32 < size))) }

def from_target (value : U256) (negative : Bool) : CompactTarget :=
  let size := (value.bits + 7) / 8
  let compact := if size ≤ 3 then value.low_u64 <<< (8 * (3 - size)) else (value.shr (8 * (size - 3))).low_u64
  -- a set sign bit is shifted away with the lowest byte
  let signed := compact &&& 0x00800000 ≠ 0
  let mantissa := if signed then compact >>> 8 else compact
  let size := if signed then size + 1 else size
  let result := mantissa ||| (BitVec.ofNat 64 size <<< 24)
  let result := if negative ∧ result &&& 0x007fffff ≠ 0 then result ||| 0x00800000 else result
  result.setWidth 32

def Work.from_compact (bits : CompactTarget) : U256 :=
  let expanded := expand bits
  if expanded.negative || expanded.overflow || expanded.value.is_zero then U256.ZERO
  else
    match expanded.value.checked_add U256.ONE with
    | none => U256.ZERO
    | some denom =>
      match expanded.value.not.div_rem denom with
      | none => U256.ZERO
      | some (quotient, _) => quotient.wrapping_add U256.ONE

end Arith

variable {bits : CompactTarget}

namespace CompactTarget

theorem mantissa_lt (bits : CompactTarget) : bits.mantissa < 2 ^ 23 :=
  lt_of_le_of_lt Nat.and_le_right (by norm_num)

theorem expand_low (h : bits.exponent ≤ 3) :
    bits.expand.value = bits.mantissa >>> (8 * (3 - bits.exponent)) ∧ bits.expand.overflow = false := by
  have hvalue : bits.expand.value = if bits.exponent ≤ 3
      then (if bits.exponent ≤ 3 then bits.mantissa >>> (8 * (3 - bits.exponent)) else bits.mantissa)
      else ((if bits.exponent ≤ 3 then bits.mantissa >>> (8 * (3 - bits.exponent)) else bits.mantissa)
        <<< (8 * (bits.exponent - 3))) % 2 ^ 256 := rfl
  have hoverflow (word : ℕ) : (word != 0 && (decide (34 < bits.exponent) || (decide (0xff < word)
      && decide (33 < bits.exponent)) || (decide (0xffff < word) && decide (32 < bits.exponent)))) = false := by
    rw [decide_eq_false (show ¬34 < bits.exponent by omega), decide_eq_false (show ¬33 < bits.exponent by omega),
      decide_eq_false (show ¬32 < bits.exponent by omega)]
    simp
  exact ⟨by rw [hvalue, if_pos h, if_pos h], hoverflow _⟩

theorem expand_high (h : ¬bits.exponent ≤ 3) :
    bits.expand.value = (bits.mantissa <<< (8 * (bits.exponent - 3))) % 2 ^ 256 ∧
      bits.expand.overflow = (bits.mantissa != 0 && (decide (34 < bits.exponent)
        || (decide (0xff < bits.mantissa) && decide (33 < bits.exponent))
        || (decide (0xffff < bits.mantissa) && decide (32 < bits.exponent)))) := by
  have hword : (if bits.exponent ≤ 3 then bits.mantissa >>> (8 * (3 - bits.exponent)) else bits.mantissa) =
      bits.mantissa := if_neg h
  have hvalue : bits.expand.value = if bits.exponent ≤ 3
      then (if bits.exponent ≤ 3 then bits.mantissa >>> (8 * (3 - bits.exponent)) else bits.mantissa)
      else ((if bits.exponent ≤ 3 then bits.mantissa >>> (8 * (3 - bits.exponent)) else bits.mantissa)
        <<< (8 * (bits.exponent - 3))) % 2 ^ 256 := rfl
  refine ⟨by rw [hvalue, if_neg h, hword], ?_⟩
  rw [← hword]
  rfl

theorem two_pow_bytes (k : ℕ) : 2 ^ (8 * k) = 256 ^ k := by
  rw [pow_mul]
  norm_num

theorem expand_value (bits : CompactTarget) (h : bits.expand.overflow = false) :
    bits.expand.value = if bits.exponent < 3 then bits.mantissa / 256 ^ (3 - bits.exponent)
      else bits.mantissa * 256 ^ (bits.exponent - 3) := by
  have hm := bits.mantissa_lt
  by_cases hle : bits.exponent ≤ 3
  · rw [(expand_low hle).1, Nat.shiftRight_eq_div_pow, two_pow_bytes]
    split_ifs with hlt
    · rfl
    · have h3 : bits.exponent = 3 := by omega
      rw [h3, Nat.sub_self, pow_zero, Nat.div_one, Nat.mul_one]
  · obtain ⟨hv, ho⟩ := expand_high hle
    rw [ho] at h
    rw [hv, if_neg (by omega), Nat.shiftLeft_eq, two_pow_bytes]
    apply Nat.mod_eq_of_lt
    by_cases h0 : bits.mantissa = 0
    · rw [h0, Nat.zero_mul]
      norm_num
    have hfit (b k : ℕ) (hb : bits.mantissa < 256 ^ b) (hk : bits.exponent - 3 ≤ k) (hbk : b + k ≤ 32) :
        bits.mantissa * 256 ^ (bits.exponent - 3) < 2 ^ 256 := by
      calc bits.mantissa * 256 ^ (bits.exponent - 3) < 256 ^ b * 256 ^ k :=
            Nat.mul_lt_mul_of_lt_of_le hb (Nat.pow_le_pow_right (by norm_num) hk) (by positivity)
        _ = 256 ^ (b + k) := (pow_add _ _ _).symm
        _ ≤ 256 ^ 32 := Nat.pow_le_pow_right (by norm_num) hbk
        _ = 2 ^ 256 := by norm_num
    have hne : (bits.mantissa != 0) = true := bne_iff_ne.mpr h0
    simp only [hne, Bool.true_and, Bool.or_eq_false_iff, Bool.and_eq_false_iff, decide_eq_false_iff_not,
      Nat.not_lt] at h
    obtain ⟨⟨h34, h33⟩, h32⟩ := h
    by_cases h1 : bits.mantissa ≤ 0xff
    · exact hfit 1 31 (by omega) (by omega) (by omega)
    · by_cases h2 : bits.mantissa ≤ 0xffff
      · exact hfit 2 30 (by omega) (by omega) (by omega)
      · exact hfit 3 29 (by omega) (by omega) (by omega)

end CompactTarget

namespace Arith

theorem expand_eq (bits : CompactTarget) : (expand bits).value.toNat = bits.expand.value ∧
    (expand bits).negative = bits.expand.negative ∧ (expand bits).overflow = bits.expand.overflow := by
  have hm := bits.mantissa_lt
  have hword (w : ℕ) (hw : w < 2 ^ 23) : (U256.from_u64 (BitVec.ofNat 64 w)).toNat = w := by
    rw [U256.toNat_from_u64, BitVec.toNat_ofNat]
    exact Nat.mod_eq_of_lt (by omega)
  have hvalue : (expand bits).value = if bits.exponent ≤ 3
      then U256.from_u64 (BitVec.ofNat 64 (if bits.exponent ≤ 3 then bits.mantissa >>> (8 * (3 - bits.exponent))
        else bits.mantissa))
      else (U256.from_u64 (BitVec.ofNat 64 bits.mantissa)).shl (8 * (bits.exponent - 3)) := rfl
  refine ⟨?_, rfl, rfl⟩
  rw [hvalue]
  by_cases hle : bits.exponent ≤ 3
  · have hs : bits.mantissa >>> (8 * (3 - bits.exponent)) < 2 ^ 23 := by
      rw [Nat.shiftRight_eq_div_pow]
      exact lt_of_le_of_lt (Nat.div_le_self _ _) hm
    rw [if_pos hle, if_pos hle, hword _ hs, (CompactTarget.expand_low hle).1]
  · rw [if_neg hle, U256.toNat_shl, hword _ hm, (CompactTarget.expand_high hle).1]

def byte_size (n : ℕ) : ℕ := (n.size + 7) / 8

def leading (n : ℕ) : ℕ := n * 256 ^ 3 / 256 ^ byte_size n

theorem lt_byte_size (n : ℕ) : n < 256 ^ byte_size n := by
  rw [← CompactTarget.two_pow_bytes]
  exact lt_of_lt_of_le (Nat.lt_size_self n) (Nat.pow_le_pow_right (by norm_num) (by unfold byte_size; omega))

variable {n m : ℕ}

theorem byte_size_le {k : ℕ} (h : n < 256 ^ k) : byte_size n ≤ k := by
  rw [← CompactTarget.two_pow_bytes] at h
  have := Nat.size_le.mpr h
  unfold byte_size
  omega

theorem byte_size_mono (h : m ≤ n) : byte_size m ≤ byte_size n :=
  byte_size_le (lt_of_le_of_lt h (lt_byte_size n))

theorem le_of_byte_size {k : ℕ} (h : byte_size n = k + 1) : 256 ^ k ≤ n := by
  by_contra hlt
  have := byte_size_le (Nat.lt_of_not_le hlt)
  omega

theorem leading_small (h : byte_size n ≤ 3) : leading n = n * 256 ^ (3 - byte_size n) := by
  have hsplit : (256 : ℕ) ^ 3 = 256 ^ (3 - byte_size n) * 256 ^ byte_size n := by
    rw [← pow_add, Nat.sub_add_cancel h]
  rw [leading, hsplit, ← Nat.mul_assoc, Nat.mul_div_cancel _ (by positivity)]

theorem leading_large (h : 3 ≤ byte_size n) : leading n = n / 256 ^ (byte_size n - 3) := by
  have hsplit : (256 : ℕ) ^ byte_size n = 256 ^ (byte_size n - 3) * 256 ^ 3 := by
    rw [← pow_add, Nat.sub_add_cancel h]
  rw [leading, hsplit, Nat.mul_div_mul_right _ _ (by positivity)]

theorem leading_lt (n : ℕ) : leading n < 2 ^ 24 := by
  rw [leading, Nat.div_lt_iff_lt_mul (by positivity)]
  calc n * 256 ^ 3 < 256 ^ byte_size n * 256 ^ 3 := Nat.mul_lt_mul_of_pos_right (lt_byte_size n) (by norm_num)
    _ = 2 ^ 24 * 256 ^ byte_size n := by rw [Nat.mul_comm]; norm_num

theorem le_leading (h : n ≠ 0) : 2 ^ 16 ≤ leading n := by
  obtain ⟨k, hk⟩ : ∃ k, byte_size n = k + 1 := by
    apply Nat.exists_eq_succ_of_ne_zero
    intro h0
    have := lt_byte_size n
    rw [h0] at this
    omega
  rw [leading, Nat.le_div_iff_mul_le (by positivity), hk, pow_succ]
  calc 2 ^ 16 * (256 ^ k * 256) = 256 ^ k * 256 ^ 3 := by ring
    _ ≤ n * 256 ^ 3 := Nat.mul_le_mul_right _ (le_of_byte_size hk)

theorem leading_mono (h : m ≤ n) (hs : byte_size m = byte_size n) : leading m ≤ leading n := by
  rw [leading, leading, hs]
  exact Nat.div_le_div_right (Nat.mul_le_mul_right _ h)

def encoded_size (n : ℕ) : ℕ := if leading n < 2 ^ 23 then byte_size n else byte_size n + 1

def encoded_mantissa (n : ℕ) : ℕ := if leading n < 2 ^ 23 then leading n else leading n / 256

theorem encoded_mantissa_lt (n : ℕ) : encoded_mantissa n < 2 ^ 23 := by
  have := leading_lt n
  unfold encoded_mantissa
  split_ifs <;> omega

variable (v : U256)

theorem low_u64_toNat : v.low_u64.toNat = v.toNat % 2 ^ 64 := by
  have := v.l0.isLt
  unfold U256.low_u64 U256.toNat
  omega

theorem from_target_toNat :
    (from_target v false).toNat = encoded_size v.toNat * 2 ^ 24 + encoded_mantissa v.toNat := by
  have hlt := leading_lt v.toNat
  have hbytes : byte_size v.toNat ≤ 32 := byte_size_le (lt_of_lt_of_le v.toNat_lt (by norm_num))
  have hsize : (v.bits + 7) / 8 = byte_size v.toNat := by
    rw [U256.bits_eq]
    rfl
  have hcompact : (if byte_size v.toNat ≤ 3 then v.low_u64 <<< (8 * (3 - byte_size v.toNat))
      else (v.shr (8 * (byte_size v.toNat - 3))).low_u64).toNat = leading v.toNat := by
    by_cases h3 : byte_size v.toNat ≤ 3
    · have hv : v.toNat < 256 ^ 3 :=
        lt_of_lt_of_le (lt_byte_size _) (Nat.pow_le_pow_right (by norm_num) h3)
      rw [if_pos h3, BitVec.toNat_shiftLeft, low_u64_toNat, Nat.mod_eq_of_lt (lt_trans hv (by norm_num)),
        Nat.shiftLeft_eq, CompactTarget.two_pow_bytes, ← leading_small h3]
      exact Nat.mod_eq_of_lt (by omega)
    · rw [if_neg h3, low_u64_toNat, U256.toNat_shr, Nat.shiftRight_eq_div_pow, CompactTarget.two_pow_bytes,
        ← leading_large (by omega)]
      exact Nat.mod_eq_of_lt (by omega)
  have hjoin (m : BitVec 64) (size : ℕ) (hm : m.toNat < 2 ^ 24) (hs : size ≤ 33) :
      ((m ||| (BitVec.ofNat 64 size <<< 24)).setWidth 32 : BitVec 32).toNat = size * 2 ^ 24 + m.toNat := by
    rw [BitVec.toNat_setWidth, BitVec.toNat_or, BitVec.toNat_shiftLeft, BitVec.toNat_ofNat, Nat.shiftLeft_eq,
      Nat.mod_eq_of_lt (show size < 2 ^ 64 by omega), Nat.mod_eq_of_lt (show size * 2 ^ 24 < 2 ^ 64 by omega),
      Nat.or_comm, Nat.mul_comm, ← Nat.two_pow_add_eq_or_of_lt hm, Nat.mod_eq_of_lt (by omega)]
  rw [from_target, hsize]
  rw [if_neg (fun h : (false = true ∧ _) => Bool.false_ne_true h.1)]
  generalize (if byte_size v.toNat ≤ 3 then v.low_u64 <<< (8 * (3 - byte_size v.toNat))
      else (v.shr (8 * (byte_size v.toNat - 3))).low_u64) = compact at hcompact ⊢
  have hsign : compact &&& 0x00800000 ≠ 0 ↔ ¬leading v.toNat < 2 ^ 23 := by
    have hand : (compact &&& 0x00800000).toNat = (leading v.toNat &&& 2 ^ 23) := by
      rw [BitVec.toNat_and, hcompact]
      rfl
    have hzero : compact &&& 0x00800000 = 0 ↔ (compact &&& 0x00800000).toNat = 0 :=
      ⟨fun h => by rw [h]; rfl, fun h => BitVec.eq_of_toNat_eq h⟩
    rw [ne_eq, hzero, hand, Nat.and_two_pow, Nat.testBit_eq_decide_div_mod_eq]
    by_cases h : leading v.toNat < 2 ^ 23
    · rw [Nat.div_eq_of_lt h]
      simp
      omega
    · have hone : leading v.toNat / 2 ^ 23 = 1 := by omega
      rw [hone]
      simp
      omega
  by_cases h : leading v.toNat < 2 ^ 23
  · have hno : ¬compact &&& 0x00800000 ≠ 0 := fun hs => hsign.mp hs h
    rw [if_neg hno, if_neg hno, hjoin _ _ (by omega) (by omega), hcompact, encoded_size, encoded_mantissa,
      if_pos h, if_pos h]
  · have hyes : compact &&& 0x00800000 ≠ 0 := hsign.mpr h
    have hshift : (compact >>> 8).toNat = leading v.toNat / 256 := by
      rw [BitVec.toNat_ushiftRight, hcompact, Nat.shiftRight_eq_div_pow]
    rw [if_pos hyes, if_pos hyes, hjoin _ _ (by omega) (by omega), hshift, encoded_size, encoded_mantissa,
      if_neg h, if_neg h]

theorem exponent_of {size mantissa : ℕ} (h : bits.toNat = size * 2 ^ 24 + mantissa) (hm : mantissa < 2 ^ 23) :
    bits.exponent = size ∧ bits.mantissa = mantissa ∧ bits.expand.negative = false := by
  have hmant : bits.mantissa = bits.toNat % 2 ^ 23 := Nat.and_two_pow_sub_one_eq_mod bits.toNat 23
  have hsign : bits.toNat &&& 0x00800000 = 0 := by
    change bits.toNat &&& 2 ^ 23 = 0
    rw [Nat.and_two_pow, Nat.testBit_eq_decide_div_mod_eq, decide_eq_false (by omega)]
    rfl
  refine ⟨?_, by omega, ?_⟩
  · rw [CompactTarget.exponent, Nat.shiftRight_eq_div_pow]
    omega
  · simp only [CompactTarget.expand, hsign, bne_self_eq_false, Bool.and_false]

def kept (n : ℕ) : ℕ := if leading n < 2 ^ 23 then 3 else 2

def truncated (n : ℕ) : ℕ := n / 256 ^ (byte_size n - kept n) * 256 ^ (byte_size n - kept n)

theorem truncated_le (n : ℕ) : truncated n ≤ n := Nat.div_mul_le_self _ _

theorem kept_eq (n : ℕ) : kept n = 2 ∨ kept n = 3 := by
  unfold kept
  split_ifs <;> simp

theorem truncated_small (h : byte_size n ≤ kept n) : truncated n = n := by
  rw [truncated, Nat.sub_eq_zero_of_le h, pow_zero, Nat.div_one, Nat.mul_one]

theorem encoded_value (n : ℕ) : (if encoded_size n < 3 then encoded_mantissa n / 256 ^ (3 - encoded_size n)
    else encoded_mantissa n * 256 ^ (encoded_size n - 3)) = truncated n := by
  by_cases hsign : leading n < 2 ^ 23
  · have hk : kept n = 3 := if_pos hsign
    rw [encoded_size, encoded_mantissa, if_pos hsign, if_pos hsign]
    by_cases h3 : byte_size n ≤ 3
    · rw [truncated_small (by omega), leading_small h3]
      split_ifs with hlt
      · rw [Nat.mul_div_cancel _ (by positivity)]
      · rw [Nat.sub_eq_zero_of_le h3, Nat.sub_eq_zero_of_le (by omega), pow_zero, Nat.mul_one, Nat.mul_one]
    · rw [if_neg (by omega), leading_large (by omega), truncated, hk]
  · have hk : kept n = 2 := if_neg hsign
    rw [encoded_size, encoded_mantissa, if_neg hsign, if_neg hsign]
    by_cases h2 : byte_size n ≤ 2
    · have hstep : (256 : ℕ) ^ (3 - byte_size n) = 256 ^ (2 - byte_size n) * 256 := by
        rw [← pow_succ]
        congr 1
        omega
      rw [truncated_small (by omega), leading_small (by omega), hstep, ← Nat.mul_assoc,
        Nat.mul_div_cancel _ (by norm_num)]
      split_ifs with hlt
      · have he : 3 - (byte_size n + 1) = 2 - byte_size n := by omega
        rw [he, Nat.mul_div_cancel _ (by positivity)]
      · rw [Nat.sub_eq_zero_of_le (show 2 ≤ byte_size n by omega), Nat.sub_eq_zero_of_le (by omega), pow_zero,
          Nat.mul_one, Nat.mul_one]
    · have hstep : (256 : ℕ) ^ (byte_size n - 2) = 256 ^ (byte_size n - 3) * 256 := by
        rw [← pow_succ]
        congr 1
        omega
      have he : byte_size n + 1 - 3 = byte_size n - 2 := by omega
      rw [if_neg (by omega), leading_large (by omega), truncated, hk, he, Nat.div_div_eq_div_mul, ← hstep]

theorem byte_size_truncated (n : ℕ) : byte_size (truncated n) = byte_size n := by
  apply le_antisymm (byte_size_mono (truncated_le n))
  by_contra hlt
  obtain ⟨k, hk⟩ : ∃ k, byte_size n = k + 1 := Nat.exists_eq_succ_of_ne_zero (by omega)
  have hsplit : (256 : ℕ) ^ k = 256 ^ (k - (byte_size n - kept n)) * 256 ^ (byte_size n - kept n) := by
    rw [← pow_add]
    congr 1
    have := kept_eq n
    omega
  have hle : 256 ^ k ≤ truncated n := by
    rw [truncated, hsplit]
    apply Nat.mul_le_mul_right
    rw [Nat.le_div_iff_mul_le (by positivity), ← hsplit]
    exact le_of_byte_size hk
  have := lt_byte_size (truncated n)
  have hpow : (256 : ℕ) ^ byte_size (truncated n) ≤ 256 ^ k := Nat.pow_le_pow_right (by norm_num) (by omega)
  omega

theorem leading_truncated (n : ℕ) :
    leading (truncated n) = if leading n < 2 ^ 23 then leading n else leading n / 256 * 256 := by
  by_cases h3 : byte_size n ≤ 3
  · by_cases hk : byte_size n ≤ kept n
    · rw [truncated_small hk]
      split_ifs with hsign
      · rfl
      have hk2 : kept n = 2 := if_neg hsign
      have hstep : (256 : ℕ) ^ (3 - byte_size n) = 256 ^ (2 - byte_size n) * 256 := by
        rw [← pow_succ]
        congr 1
        omega
      rw [leading_small h3, hstep, ← Nat.mul_assoc, Nat.mul_div_cancel _ (by norm_num)]
    · have hkept := kept_eq n
      have hk2 : kept n = 2 := by omega
      have hb : byte_size n = 3 := by omega
      have hsign : ¬leading n < 2 ^ 23 := by
        intro h
        have : kept n = 3 := if_pos h
        omega
      have hn : leading n = n := by
        rw [leading_small h3, hb, Nat.sub_self, pow_zero, Nat.mul_one]
      rw [leading_small (by rw [byte_size_truncated, hb]), byte_size_truncated, hb, Nat.sub_self, pow_zero,
        Nat.mul_one, if_neg hsign, hn, truncated, hb, hk2, pow_one]
  · rw [leading_large (by rw [byte_size_truncated]; omega), byte_size_truncated, truncated,
      leading_large (n := n) (by omega)]
    by_cases hsign : leading n < 2 ^ 23
    · have hk : kept n = 3 := if_pos hsign
      rw [leading_large (by omega)] at hsign
      rw [if_pos hsign, hk, Nat.mul_div_cancel _ (by positivity)]
    · have hk : kept n = 2 := if_neg hsign
      have hstep : (256 : ℕ) ^ (byte_size n - 2) = 256 ^ (byte_size n - 3) * 256 := by
        rw [← pow_succ]
        congr 1
        omega
      rw [leading_large (by omega)] at hsign
      rw [if_neg hsign, hk, hstep, ← Nat.div_div_eq_div_mul, Nat.mul_comm (256 ^ (byte_size n - 3)) 256,
        ← Nat.mul_assoc, Nat.mul_div_cancel _ (by positivity)]

theorem truncated_mono (h : m ≤ n) : truncated m ≤ truncated n := by
  rcases Nat.lt_or_eq_of_le (byte_size_mono h) with hlt | heq
  · obtain ⟨k, hk⟩ : ∃ k, byte_size n = k + 1 := Nat.exists_eq_succ_of_ne_zero (by omega)
    calc truncated m ≤ m := truncated_le m
      _ ≤ 256 ^ byte_size m := (lt_byte_size m).le
      _ ≤ 256 ^ k := Nat.pow_le_pow_right (by norm_num) (by omega)
      _ ≤ truncated n := le_of_byte_size (by rw [byte_size_truncated, hk])
  · have hlead := leading_mono h heq
    by_cases hkept : kept m = kept n
    · rw [truncated, truncated, heq, hkept]
      exact Nat.mul_le_mul_right _ (Nat.div_le_div_right h)
    have hm : leading m < 2 ^ 23 := by
      by_contra hm
      exact hkept (by rw [kept, kept, if_neg hm, if_neg (by omega)])
    have hn : ¬leading n < 2 ^ 23 := fun hn => hkept (by rw [kept, kept, if_pos hm, if_pos hn])
    have hk : kept n = 2 := if_neg hn
    by_cases h2 : byte_size n ≤ 2
    · rw [truncated_small (n := n) (by omega)]
      exact (truncated_le m).trans h
    -- The smaller one has its sign bit clear, so it is below the first two bytes of the larger.
    rw [leading_large (by omega), heq] at hm
    rw [leading_large (by omega)] at hn
    have hstep : (256 : ℕ) ^ (byte_size n - 2) = 256 ^ (byte_size n - 3) * 256 := by
      rw [← pow_succ]
      congr 1
      omega
    calc truncated m ≤ m := truncated_le m
      _ ≤ 2 ^ 23 * 256 ^ (byte_size n - 3) := ((Nat.div_lt_iff_lt_mul (by positivity)).mp hm).le
      _ = 2 ^ 15 * 256 ^ (byte_size n - 2) := by rw [hstep]; ring
      _ ≤ n / 256 ^ (byte_size n - 2) * 256 ^ (byte_size n - 2) := by
        apply Nat.mul_le_mul_right
        rw [hstep, ← Nat.div_div_eq_div_mul]
        omega
      _ = truncated n := by rw [truncated, hk]

theorem encoded_truncated (n : ℕ) : encoded_size (truncated n) = encoded_size n ∧
    encoded_mantissa (truncated n) = encoded_mantissa n := by
  unfold encoded_size encoded_mantissa
  rw [leading_truncated, byte_size_truncated]
  by_cases h : leading n < 2 ^ 23
  · rw [if_pos h, if_pos h]
    exact ⟨rfl, rfl⟩
  · have hstill : ¬leading n / 256 * 256 < 2 ^ 23 := by omega
    rw [if_neg h, if_neg hstill, if_neg h, Nat.mul_div_cancel _ (by norm_num)]
    exact ⟨rfl, (if_neg hstill).trans (if_neg h).symm⟩

theorem encoded_mono (h : m ≤ n) : encoded_size m * 2 ^ 24 + encoded_mantissa m ≤
    encoded_size n * 2 ^ 24 + encoded_mantissa n := by
  rcases Nat.lt_or_eq_of_le (byte_size_mono h) with hlt | heq
  · have hn : 2 ^ 16 ≤ leading n := by
      apply le_leading
      rintro rfl
      have : byte_size 0 = 0 := rfl
      omega
    have hlead := leading_lt m
    unfold encoded_size encoded_mantissa at *
    split_ifs at * <;> omega
  · have hlead := leading_mono h heq
    have := leading_lt n
    unfold encoded_size encoded_mantissa at *
    rw [heq]
    split_ifs at * <;> omega

theorem expand_encoded (hn : n < 2 ^ 256) (h : bits.toNat = encoded_size n * 2 ^ 24 + encoded_mantissa n) :
    bits.expand.negative = false ∧ bits.expand.overflow = false ∧ bits.expand.value = truncated n := by
  obtain ⟨hs, hm, hneg⟩ := exponent_of h (encoded_mantissa_lt _)
  have hbytes : byte_size n ≤ 32 := byte_size_le (lt_of_lt_of_le hn (by norm_num))
  have hlead := leading_lt n
  have ho : bits.expand.overflow = false := by
    by_cases hle : bits.exponent ≤ 3
    · exact (CompactTarget.expand_low hle).2
    rw [(CompactTarget.expand_high hle).2, hs, hm, Bool.and_eq_false_iff]
    right
    have hsize : encoded_size n ≤ 32 ∨ encoded_size n = 33 ∧ encoded_mantissa n ≤ 0xffff := by
      unfold encoded_size encoded_mantissa
      split_ifs <;> omega
    rw [decide_eq_false (show ¬34 < encoded_size n by omega), decide_eq_false (show ¬33 < encoded_size n by omega)]
    rcases hsize with h | h
    · rw [decide_eq_false (show ¬32 < encoded_size n by omega)]
      simp
    · rw [decide_eq_false (show ¬0xffff < encoded_mantissa n by omega)]
      simp
  exact ⟨hneg, ho, by rw [CompactTarget.expand_value _ ho, hs, hm, encoded_value]⟩

theorem to_compact_toNat (hn : n < 2 ^ 256) :
    (to_compact n).toNat = encoded_size n * 2 ^ 24 + encoded_mantissa n := by
  have hlt := leading_lt n
  have hbytes : byte_size n ≤ 32 := byte_size_le (lt_of_lt_of_le hn (by norm_num))
  have hcompact : (if byte_size n ≤ 3 then (n % 2 ^ 64) <<< (8 * (3 - byte_size n))
      else (n >>> (8 * (byte_size n - 3))) % 2 ^ 64) = leading n := by
    by_cases h3 : byte_size n ≤ 3
    · have hsmall : n < 256 ^ 3 := lt_of_lt_of_le (lt_byte_size n) (Nat.pow_le_pow_right (by norm_num) h3)
      rw [if_pos h3, Nat.mod_eq_of_lt (lt_trans hsmall (by norm_num)), Nat.shiftLeft_eq,
        CompactTarget.two_pow_bytes, ← leading_small h3]
    · rw [if_neg h3, Nat.shiftRight_eq_div_pow, CompactTarget.two_pow_bytes, ← leading_large (by omega)]
      exact Nat.mod_eq_of_lt (by omega)
  have hjoin {m size : ℕ} (hm : m < 2 ^ 24) (hs : size ≤ 33) :
      (BitVec.ofNat 32 (m ||| size <<< 24)).toNat = size * 2 ^ 24 + m := by
    rw [BitVec.toNat_ofNat, Nat.shiftLeft_eq, Nat.or_comm, Nat.mul_comm, ← Nat.two_pow_add_eq_or_of_lt hm,
      Nat.mod_eq_of_lt (by omega)]
  have hsign : (leading n &&& 0x00800000 != 0) = !decide (leading n < 2 ^ 23) := by
    change (leading n &&& 2 ^ 23 != 0) = _
    rw [Nat.and_two_pow, Nat.testBit_eq_decide_div_mod_eq]
    by_cases h : leading n < 2 ^ 23
    · rw [Nat.div_eq_of_lt h, decide_eq_true h]
      rfl
    · have hone : leading n / 2 ^ 23 = 1 := by omega
      rw [hone, decide_eq_false h]
      rfl
  unfold to_compact
  dsimp only
  rw [show (n.size + 7) / 8 = byte_size n from rfl, hcompact, hsign, encoded_size, encoded_mantissa]
  by_cases h : leading n < 2 ^ 23
  · rw [decide_eq_true h, if_neg (by simp), if_pos h, if_pos h, hjoin hlt (by omega)]
  · rw [decide_eq_false h, if_pos (by simp), if_neg h, if_neg h, Nat.shiftRight_eq_div_pow,
      hjoin (by omega) (by omega)]

theorem expand_to_compact (hn : n < 2 ^ 256) : (to_compact n).expand.value = truncated n :=
  (expand_encoded hn (to_compact_toNat hn)).2.2

theorem expand_from_target : (expand (from_target v false)).negative = false ∧
    (expand (from_target v false)).overflow = false ∧
    (expand (from_target v false)).value.toNat = truncated v.toNat := by
  obtain ⟨hvalue, hneg, hover⟩ := expand_eq (from_target v false)
  obtain ⟨hn, ho, hv⟩ := expand_encoded v.toNat_lt (from_target_toNat v)
  exact ⟨hneg.trans hn, hover.trans ho, hvalue.trans hv⟩

/-- An encoding keeps the top two or three bytes of a target, is the encoding of what it keeps, and goes up with the
target; every compact form that fits is its mantissa moved by whole bytes. -/
theorem compact_form_exact :
    (∀ v : U256, (expand (from_target v false)).negative = false ∧ (expand (from_target v false)).overflow = false ∧
      (expand (from_target v false)).value.toNat ≤ v.toNat ∧
      (∃ k, (k = 2 ∨ k = 3) ∧ (expand (from_target v false)).value.toNat =
        v.toNat / 256 ^ ((v.bits + 7) / 8 - k) * 256 ^ ((v.bits + 7) / 8 - k)) ∧
      from_target (expand (from_target v false)).value false = from_target v false) ∧
    (∀ v w : U256, v.toNat ≤ w.toNat → (from_target v false).toNat ≤ (from_target w false).toNat) ∧
    ∀ bits : CompactTarget, (expand bits).overflow = false → (expand bits).value.toNat =
      if bits.exponent < 3 then bits.mantissa / 256 ^ (3 - bits.exponent)
      else bits.mantissa * 256 ^ (bits.exponent - 3) := by
  refine ⟨?_, ?_, ?_⟩
  · intro v
    obtain ⟨hneg, hover, hvalue⟩ := expand_from_target v
    refine ⟨hneg, hover, hvalue.trans_le (truncated_le _), ⟨kept v.toNat, kept_eq _, ?_⟩, ?_⟩
    · rw [hvalue, U256.bits_eq]
      rfl
    · apply BitVec.eq_of_toNat_eq
      obtain ⟨hsize, hmantissa⟩ := encoded_truncated v.toNat
      rw [from_target_toNat, from_target_toNat, hvalue, hsize, hmantissa]
  · intro v w h
    rw [from_target_toNat, from_target_toNat]
    exact encoded_mono h
  · intro bits h
    obtain ⟨hvalue, -, hover⟩ := expand_eq bits
    rw [hvalue]
    exact CompactTarget.expand_value bits (hover.symm.trans h)

theorem compact_form_exact_genesis : (from_target (U256.from_u64 0x7f) false).toNat ≤
      (from_target (U256.from_u64 0x80) false).toNat ∧
    (expand 0x1d00ffff).value.toNat = if (0x1d00ffff : CompactTarget).exponent < 3
      then (0x1d00ffff : CompactTarget).mantissa / 256 ^ (3 - (0x1d00ffff : CompactTarget).exponent)
      else (0x1d00ffff : CompactTarget).mantissa * 256 ^ ((0x1d00ffff : CompactTarget).exponent - 3) :=
  ⟨compact_form_exact.2.1 (U256.from_u64 0x7f) (U256.from_u64 0x80) (by decide),
    compact_form_exact.2.2 0x1d00ffff (by decide)⟩

theorem expand_succ_lt (bits : CompactTarget) (h : bits.expand.overflow = false) : bits.expand.value + 1 <
    2 ^ 256 := by
  have hm := bits.mantissa_lt
  by_cases hle : bits.exponent ≤ 3
  · rw [(CompactTarget.expand_low hle).1, Nat.shiftRight_eq_div_pow]
    have := Nat.div_le_self bits.mantissa (2 ^ (8 * (3 - bits.exponent)))
    omega
  · have hlt : bits.expand.value < 2 ^ 256 := by
      rw [(CompactTarget.expand_high hle).1]
      exact Nat.mod_lt _ (by norm_num)
    have heven : bits.expand.value % 2 = 0 := by
      obtain ⟨k, hk⟩ := Nat.exists_eq_succ_of_ne_zero (show bits.exponent - 3 ≠ 0 by omega)
      rw [CompactTarget.expand_value bits h, if_neg (by omega), hk, pow_succ, ← Nat.mul_assoc]
      omega
    omega

theorem from_compact_eq (hneg : (expand bits).negative = false) (hover : (expand bits).overflow = false)
    (hzero : (expand bits).value.toNat ≠ 0) :
    (expand bits).value.toNat + 1 < 2 ^ 256 ∧
      (Work.from_compact bits).toNat = 2 ^ 256 / ((expand bits).value.toNat + 1) := by
  obtain ⟨hvalue, -, ho⟩ := expand_eq bits
  have hfits : (expand bits).value.toNat + 1 < 2 ^ 256 := by
    rw [hvalue]
    exact expand_succ_lt bits (ho.symm.trans hover)
  refine ⟨hfits, ?_⟩
  have hone : U256.ONE.toNat = 1 := rfl
  obtain ⟨denom, hd, hdv⟩ := U256.checked_add_eq (expand bits).value U256.ONE (by rw [hone]; exact hfits)
  rw [hone] at hdv
  obtain ⟨q, r, hq, hexact, hr⟩ := U256.div_rem_spec (expand bits).value.not (b := denom) (by omega)
  have hz : (expand bits).value.is_zero = false := Bool.eq_false_iff.mpr (mt U256.toNat_eq_zero.mpr hzero)
  have hwork : Work.from_compact bits = q.wrapping_add U256.ONE := by
    rw [Work.from_compact]
    simp only [hneg, hover, hz, Bool.or_self, Bool.false_eq_true, ↓reduceIte, hd, hq]
  rw [U256.toNat_not, hdv] at hexact
  rw [hdv] at hr
  generalize (expand bits).value.toNat = t at *
  -- 2^256 is q + 1 times t + 1, and a remainder below it
  have hdiv : 2 ^ 256 / (t + 1) = q.toNat + 1 := by
    apply Nat.div_eq_of_lt_le
    · have hmul : (q.toNat + 1) * (t + 1) = q.toNat * (t + 1) + (t + 1) := by ring
      omega
    · have hmul : (q.toNat + 1 + 1) * (t + 1) = q.toNat * (t + 1) + (t + 1) + (t + 1) := by ring
      omega
  have hsmall : 2 ^ 256 / (t + 1) < 2 ^ 256 := Nat.div_lt_self (by norm_num) (by omega)
  rw [hwork, U256.toNat_wrapping_add (by rw [hone]; omega), hone, hdiv]

/-- The division is exact over all four limbs, and the work of a target is the exact quotient. -/
theorem work_exact :
    (∀ a b : U256, b ≠ U256.ZERO → ∃ q r, a.div_rem b = some (q, r) ∧
      a.toNat = q.toNat * b.toNat + r.toNat ∧ r.toNat < b.toNat) ∧
    ∀ bits : CompactTarget, (expand bits).negative = false → (expand bits).overflow = false →
      (expand bits).value.toNat ≠ 0 → (expand bits).value.toNat + 1 < 2 ^ 256 ∧
        (Work.from_compact bits).toNat = 2 ^ 256 / ((expand bits).value.toNat + 1) := by
  refine ⟨?_, fun bits hneg hover hzero => from_compact_eq hneg hover hzero⟩
  intro a b hb
  apply U256.div_rem_spec
  intro h
  exact hb (of_decide_eq_true (U256.toNat_eq_zero.mp h))

theorem work_exact_genesis : (∃ q r, (U256.from_u64 7).div_rem (U256.from_u64 2) = some (q, r) ∧
      (U256.from_u64 7).toNat = q.toNat * (U256.from_u64 2).toNat + r.toNat ∧ r.toNat < (U256.from_u64 2).toNat) ∧
    (expand 0x1d00ffff).value.toNat + 1 < 2 ^ 256 ∧
      (Work.from_compact 0x1d00ffff).toNat = 2 ^ 256 / ((expand 0x1d00ffff).value.toNat + 1) :=
  ⟨work_exact.1 _ _ (by decide), work_exact.2 0x1d00ffff (by decide) (by decide) (by decide)⟩

theorem Work.from_compact_toNat (bits : CompactTarget) :
    (Work.from_compact bits).toNat = AvilaNode.Work.from_compact bits := by
  obtain ⟨hvalue, hneg, hover⟩ := expand_eq bits
  by_cases hz : (expand bits).negative = true ∨ (expand bits).overflow = true ∨ (expand bits).value.toNat = 0
  · have hl : Work.from_compact bits = U256.ZERO := by
      rw [Work.from_compact]
      rcases hz with h | h | h
      · simp [h]
      · simp [h]
      · simp [U256.toNat_eq_zero.mp h]
    rw [hl, AvilaNode.Work.from_compact, ← hneg, ← hover, ← hvalue]
    rcases hz with h | h | h <;> simp [h] <;> rfl
  · push Not at hz
    obtain ⟨hn, ho, hv⟩ := hz
    have hn := Bool.eq_false_iff.mpr hn
    have ho := Bool.eq_false_iff.mpr ho
    obtain ⟨hfits, hwork⟩ := from_compact_eq hn ho hv
    rw [hwork, AvilaNode.Work.from_compact, ← hneg, ← hover, ← hvalue]
    generalize (expand bits).value.toNat = t at *
    have hsum : 2 ^ 256 = (2 ^ 256 - 1 - t) + (t + 1) := by omega
    have hdiv : 2 ^ 256 / (t + 1) = (2 ^ 256 - 1 - t) / (t + 1) + 1 := by
      conv_lhs => rw [hsum]
      rw [Nat.add_div_right _ (by omega)]
    have hsmall : 2 ^ 256 / (t + 1) < 2 ^ 256 := Nat.div_lt_self (by norm_num) (by omega)
    simp only [hn, ho, Bool.or_self, Bool.false_or, beq_iff_eq, hv, if_false, if_neg (Nat.not_le_of_lt hfits)]
    rw [← hdiv, Nat.mod_eq_of_lt hsmall]

end Arith

end AvilaNode
