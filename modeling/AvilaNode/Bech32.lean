import AvilaNode.Base58
import Mathlib.Tactic.IntervalCases

/-! Witness addresses: the checksum is linear and the regrouping of bits is exact. -/

namespace AvilaNode.Address

open Interpreter Utf8 Radix

variable {v : ℕ}

section Checksum

variable (x : BitVec 32) (check : BitVec 32)

theorem xor_zero : x ^^^ 0 = x := by
  simp

theorem and_xor (x y mask : BitVec 32) : (x ^^^ y) &&& mask = (x &&& mask) ^^^ (y &&& mask) := by
  ext i h
  rw [BitVec.getElem_and, BitVec.getElem_xor, BitVec.getElem_xor, BitVec.getElem_and, BitVec.getElem_and]
  exact Bool.and_xor_distrib_right _ _ _

def generators (top : BitVec 32) : BitVec 32 :=
  GEN.zipIdx.foldl (fun chk g => if top.getLsbD g.2 then chk ^^^ g.1 else chk) 0

theorem feed_eq (chk : BitVec 32) (v : ℕ) :
    feed chk v = (chk &&& 0x1ffffff) <<< 5 ^^^ generators (chk >>> 25) ^^^ BitVec.ofNat 32 v := by
  have hfold (gs : List (BitVec 32 × ℕ)) (top a b : BitVec 32) :
      gs.foldl (fun chk g => if top.getLsbD g.2 then chk ^^^ g.1 else chk) (a ^^^ b) =
        a ^^^ gs.foldl (fun chk g => if top.getLsbD g.2 then chk ^^^ g.1 else chk) b := by
    induction gs generalizing b with
    | nil => rfl
    | cons g gs ih =>
      rw [List.foldl_cons, List.foldl_cons]
      split_ifs
      · rw [BitVec.xor_assoc, ih]
      · exact ih b
  have hstart := hfold GEN.zipIdx (chk >>> 25) ((chk &&& 0x1ffffff) <<< 5 ^^^ BitVec.ofNat 32 v) 0
  rw [xor_zero] at hstart
  rw [feed]
  exact hstart.trans (by rw [generators, BitVec.xor_assoc, BitVec.xor_assoc, BitVec.xor_comm (BitVec.ofNat 32 v)])

theorem generators_xor (a b : BitVec 32) : generators (a ^^^ b) = generators a ^^^ generators b := by
  have hfold (gs : List (BitVec 32 × ℕ)) (x y : BitVec 32) :
      gs.foldl (fun chk g => if (a ^^^ b).getLsbD g.2 then chk ^^^ g.1 else chk) (x ^^^ y) =
        gs.foldl (fun chk g => if a.getLsbD g.2 then chk ^^^ g.1 else chk) x ^^^
          gs.foldl (fun chk g => if b.getLsbD g.2 then chk ^^^ g.1 else chk) y := by
    induction gs generalizing x y with
    | nil => rfl
    | cons g gs ih =>
      rw [List.foldl_cons, List.foldl_cons, List.foldl_cons, ← ih, BitVec.getLsbD_xor]
      congr 1
      cases a.getLsbD g.2 <;> cases b.getLsbD g.2
      · rfl
      · exact BitVec.xor_assoc x y g.1
      · change x ^^^ y ^^^ g.1 = x ^^^ g.1 ^^^ y
        rw [BitVec.xor_assoc, BitVec.xor_comm y, ← BitVec.xor_assoc]
      · change x ^^^ y = x ^^^ g.1 ^^^ (y ^^^ g.1)
        rw [BitVec.xor_comm y, BitVec.xor_assoc, ← BitVec.xor_assoc g.1, BitVec.xor_self, BitVec.zero_xor]
  have h := hfold GEN.zipIdx 0 0
  rwa [xor_zero] at h

theorem feed_xor (x y : BitVec 32) (v : ℕ) : feed (x ^^^ y) v = feed x 0 ^^^ feed y v := by
  rw [feed_eq, feed_eq, feed_eq, and_xor, BitVec.shiftLeft_xor_distrib,
    BitVec.ushiftRight_xor_distrib, generators_xor]
  have hz : BitVec.ofNat 32 0 = 0 := rfl
  rw [hz, xor_zero]
  ac_rfl

theorem foldl_feed (values : List ℕ) :
    values.foldl feed x = (List.replicate values.length 0).foldl feed x ^^^ values.foldl feed 0 := by
  have hgen (y : BitVec 32) : values.foldl feed (x ^^^ y) =
      (List.replicate values.length 0).foldl feed x ^^^ values.foldl feed y := by
    induction values generalizing x y with
    | nil => rfl
    | cons v values ih => rw [List.foldl_cons, feed_xor, ih, List.length_cons, List.replicate_succ]; rfl
  have h := hgen 0
  rwa [xor_zero] at h

theorem feed_small {x : BitVec 32} (hx : x.toNat < 2 ^ 25) (hv : v < 32) :
    (feed x v).toNat = x.toNat * 32 + v := by
  have htop : x >>> 25 = 0 := by
    apply BitVec.eq_of_toNat_eq
    rw [BitVec.toNat_ushiftRight, Nat.shiftRight_eq_div_pow, Nat.div_eq_of_lt hx]
    rfl
  have hnone : generators 0 = 0 := by decide
  have hmask : x &&& 0x1ffffff = x := by
    apply BitVec.eq_of_toNat_eq
    rw [BitVec.toNat_and]
    exact (Nat.and_two_pow_sub_one_eq_mod x.toNat 25).trans (Nat.mod_eq_of_lt hx)
  rw [feed_eq, htop, hnone, hmask, xor_zero, BitVec.toNat_xor, BitVec.toNat_shiftLeft, BitVec.toNat_ofNat,
    Nat.shiftLeft_eq, Nat.mod_eq_of_lt (by omega), Nat.mod_eq_of_lt (by omega), Nat.mul_comm x.toNat]
  apply Nat.eq_of_testBit_eq
  intro i
  rw [Nat.testBit_two_pow_mul_add x.toNat (show v < 2 ^ 5 from hv), Nat.testBit_xor, Nat.testBit_two_pow_mul]
  by_cases hi : i < 5
  · simp [hi, show ¬5 ≤ i by omega]
  · have hpow : 2 ^ 5 ≤ 2 ^ i := Nat.pow_le_pow_right (by norm_num) (by omega)
    have hv0 : v.testBit i = false := Nat.testBit_lt_two_pow (lt_of_lt_of_le hv hpow)
    simp [hi, hv0, show 5 ≤ i by omega]

theorem feed_digits {digits : List ℕ} (hlen : digits.length ≤ 6) (hsmall : ∀ d ∈ digits, d < 32) :
    (digits.foldl feed 0).toNat = number 32 digits := by
  induction digits using List.reverseRecOn with
  | nil => rfl
  | append_singleton digits d ih =>
    rw [List.length_append, List.length_singleton] at hlen
    have hd := hsmall d (List.mem_append_right _ (List.mem_singleton_self d))
    have hrest (e : ℕ) (he : e ∈ digits) : e < 32 := hsmall e (List.mem_append_left _ he)
    have hnumber := ih (by omega) hrest
    have hlt : number 32 digits < 2 ^ 25 := by
      calc number 32 digits < 32 ^ digits.length := number_lt hrest
        _ ≤ 32 ^ 5 := Nat.pow_le_pow_right (by norm_num) (by omega)
        _ = 2 ^ 25 := by norm_num
    rw [List.foldl_append, List.foldl_cons, List.foldl_nil, feed_small (by rw [hnumber]; exact hlt) hd, hnumber,
      number_concat]

theorem feed_lt (hv : v < 32) : (feed x v).toNat < 2 ^ 30 := by
  have hgen : generators (x >>> 25) &&& (0x3fffffff : BitVec 32) = generators (x >>> 25) := by
    have hfold (gs : List (BitVec 32 × ℕ)) (top y : BitVec 32) (hy : y &&& (0x3fffffff : BitVec 32) = y)
        (hgs : ∀ g ∈ gs, g.1 &&& (0x3fffffff : BitVec 32) = g.1) :
        gs.foldl (fun chk g => if top.getLsbD g.2 then chk ^^^ g.1 else chk) y &&& (0x3fffffff : BitVec 32) =
          gs.foldl (fun chk g => if top.getLsbD g.2 then chk ^^^ g.1 else chk) y := by
      induction gs generalizing y with
      | nil => exact hy
      | cons g gs ih =>
        rw [List.foldl_cons]
        apply ih _ _ fun g hg => hgs g (List.mem_cons_of_mem _ hg)
        split_ifs
        · rw [and_xor, hy, hgs g List.mem_cons_self]
        · exact hy
    exact hfold _ _ 0 (by decide) (by decide)
  have hmask (y : BitVec 32) (hy : y &&& (0x3fffffff : BitVec 32) = y) : y.toNat < 2 ^ 30 := by
    rw [← hy, BitVec.toNat_and]
    exact lt_of_le_of_lt Nat.and_le_right (by decide)
  have hlow : (x &&& 0x1ffffff) <<< 5 &&& (0x3fffffff : BitVec 32) = (x &&& 0x1ffffff) <<< 5 := by
    apply BitVec.eq_of_toNat_eq
    rw [BitVec.toNat_and, BitVec.toNat_shiftLeft, BitVec.toNat_and, Nat.shiftLeft_eq]
    have hle : x.toNat &&& 0x1ffffff ≤ 0x1ffffff := Nat.and_le_right
    rw [show (0x1ffffff : BitVec 32).toNat = 0x1ffffff from rfl, Nat.mod_eq_of_lt (by omega)]
    exact (Nat.and_two_pow_sub_one_eq_mod _ 30).trans (Nat.mod_eq_of_lt (by omega))
  have hvalue : BitVec.ofNat 32 v &&& (0x3fffffff : BitVec 32) = BitVec.ofNat 32 v := by
    apply BitVec.eq_of_toNat_eq
    rw [BitVec.toNat_and, BitVec.toNat_ofNat, Nat.mod_eq_of_lt (by omega)]
    exact (Nat.and_two_pow_sub_one_eq_mod _ 30).trans (Nat.mod_eq_of_lt (by omega))
  apply hmask
  rw [feed_eq, and_xor, and_xor, hlow, hgen, hvalue]

def check_groups (check : BitVec 32) : List ℕ := [25, 20, 15, 10, 5, 0].map fun shift =>
    ((check >>> shift) &&& 0x1f).toNat

theorem check_group_eq (shift : ℕ) :
    ((check >>> shift) &&& 0x1f).toNat = check.toNat / 2 ^ shift % 32 := by
  rw [BitVec.toNat_and, BitVec.toNat_ushiftRight, Nat.shiftRight_eq_div_pow]
  exact Nat.and_two_pow_sub_one_eq_mod _ 5

theorem check_groups_small : ∀ d ∈ check_groups check, d < 32 := by
  intro d hd
  obtain ⟨shift, -, rfl⟩ := List.mem_map.mp hd
  rw [check_group_eq]
  exact Nat.mod_lt _ (by norm_num)

theorem number_check_groups {check : BitVec 32} (h : check.toNat < 2 ^ 30) :
    number 32 (check_groups check) = check.toNat := by
  have hgroups : check_groups check =
    [check.toNat / 2 ^ 25 % 32, check.toNat / 2 ^ 20 % 32, check.toNat / 2 ^ 15 % 32,
      check.toNat / 2 ^ 10 % 32, check.toNat / 2 ^ 5 % 32, check.toNat / 2 ^ 0 % 32] := by
    simp only [check_groups, List.map_cons, List.map_nil, check_group_eq]
  rw [hgroups]
  simp only [number, List.foldl_cons, List.foldl_nil]
  omega

theorem polymod_zeros_lt (hrp : List UInt8) (data : List ℕ) : (polymod hrp (data ++ List.replicate 6 0)).toNat <
    2 ^ 30 := by
  rw [polymod, ← List.append_assoc, List.replicate_succ', ← List.append_assoc, List.foldl_append]
  exact feed_lt _ (by norm_num)

theorem checksum_const_lt (version : ℕ) : (checksum_const version).toNat < 2 ^ 30 := by
  rw [checksum_const]
  split_ifs <;> decide

theorem polymod_eq_iff (hrp : List UInt8) (data : List ℕ) {check : List ℕ} (hlen : check.length = 6)
    (hsmall : ∀ d ∈ check, d < 32) (version : ℕ) :
    polymod hrp (data ++ check) = checksum_const version ↔
      check = check_groups (polymod hrp (data ++ List.replicate 6 0) ^^^ checksum_const version) := by
  have hsplit : polymod hrp (data ++ check) = polymod hrp (data ++ List.replicate 6 0) ^^^ check.foldl feed 0 := by
    have hrest (values : List ℕ) :
        polymod hrp (data ++ values) = values.foldl feed ((expand_hrp hrp ++ data).foldl feed 1) := by
      rw [polymod, ← List.append_assoc, List.foldl_append]
    rw [hrest, hrest, foldl_feed _ check, hlen]
  have hlt : (polymod hrp (data ++ List.replicate 6 0) ^^^ checksum_const version).toNat < 2 ^ 30 := by
    rw [BitVec.toNat_xor]
    exact Nat.xor_lt_two_pow (polymod_zeros_lt hrp data) (checksum_const_lt version)
  have hxor (a b c : BitVec 32) : a ^^^ b = c ↔ b = a ^^^ c := by
    constructor
    · rintro rfl
      rw [← BitVec.xor_assoc, BitVec.xor_self, BitVec.zero_xor]
    · rintro rfl
      rw [← BitVec.xor_assoc, BitVec.xor_self, BitVec.zero_xor]
  rw [hsplit, hxor]
  constructor
  · intro h
    apply number_inj hsmall (check_groups_small _) (by rw [hlen]; rfl)
    rw [number_check_groups hlt, ← h, feed_digits hlen.le hsmall]
  · intro h
    apply BitVec.eq_of_toNat_eq
    rw [feed_digits hlen.le hsmall, ← number_check_groups hlt, ← h]

end Checksum

section Regroup

theorem and_mask (n k : ℕ) : n &&& (2 ^ k - 1) = n % 2 ^ k := Nat.and_two_pow_sub_one_eq_mod n k

variable (acc : ℕ) {values : List ℕ}

theorem emit_groups_spec {turns bits : ℕ} (h : bits ≤ turns) :
    (emit_groups acc turns bits).2 < 5 ∧
      bits = 5 * (emit_groups acc turns bits).1.length + (emit_groups acc turns bits).2 ∧
    number 32 (emit_groups acc turns bits).1 = acc % 2 ^ bits / 2 ^ (emit_groups acc turns bits).2 ∧
    ∀ d ∈ (emit_groups acc turns bits).1, d < 32 := by
  induction turns generalizing bits with
  | zero =>
    obtain rfl : bits = 0 := by omega
    exact ⟨by simp [emit_groups], by simp [emit_groups], by simp [emit_groups, Nat.mod_one], by simp [emit_groups]⟩
  | succ turns ih =>
    rw [emit_groups]
    by_cases h5 : 5 ≤ bits
    · obtain ⟨hlt, hlen, hnumber, hsmall⟩ := ih (show bits - 5 ≤ turns by omega)
      rw [if_pos h5]
      dsimp only
      have hgroup : (acc >>> (bits - 5)) &&& 0x1f = acc / 2 ^ (bits - 5) % 32 := by
        rw [Nat.shiftRight_eq_div_pow]
        exact and_mask _ 5
      refine ⟨hlt, by rw [List.length_cons]; omega, ?_, ?_⟩
      · rw [number_cons, hnumber, hgroup]
        generalize (emit_groups acc turns (bits - 5)).1.length = count at hlen ⊢
        generalize (emit_groups acc turns (bits - 5)).2 = rest at hlen hlt ⊢
        have hbits : (2 : ℕ) ^ bits = 2 ^ (bits - 5) * 32 := by
          rw [show (32 : ℕ) = 2 ^ 5 by norm_num, ← pow_add, Nat.sub_add_cancel h5]
        have hpow : (32 : ℕ) ^ count * 2 ^ rest = 2 ^ (bits - 5) := by
          rw [show (32 : ℕ) = 2 ^ 5 by norm_num, ← pow_mul, ← pow_add, ← hlen]
        have hmod := Nat.mod_mul (x := acc) (a := 2 ^ (bits - 5)) (b := 32)
        rw [hbits, hmod]
        have hsum : acc % 2 ^ (bits - 5) + 2 ^ (bits - 5) * (acc / 2 ^ (bits - 5) % 32) =
            acc % 2 ^ (bits - 5) + 2 ^ rest * (acc / 2 ^ (bits - 5) % 32 * 32 ^ count) := by
          rw [← hpow]
          ring
        rw [hsum, Nat.add_mul_div_left _ _ (by positivity), Nat.add_comm]
      · intro d hd
        rcases List.mem_cons.mp hd with rfl | hd
        · rw [hgroup]
          exact Nat.mod_lt _ (by norm_num)
        · exact hsmall d hd
    · rw [if_neg h5]
      refine ⟨by omega, by simp, ?_, by simp⟩
      rw [number_nil, Nat.div_eq_of_lt (Nat.mod_lt _ (by positivity))]

theorem acc_byte (acc bits : ℕ) (byte : UInt8) (h : bits + 8 ≤ 32) :
    ((acc <<< 8 ||| byte.toNat) % 2 ^ 32) % 2 ^ (bits + 8) = acc % 2 ^ bits * 256 + byte.toNat := by
  have hbyte : byte.toNat < 2 ^ 8 := byte.toNat_lt
  rw [Nat.shiftLeft_eq, Nat.mul_comm acc, ← Nat.two_pow_add_eq_or_of_lt hbyte, Nat.mod_mod_of_dvd _ (pow_dvd_pow 2 h),
    Nat.add_comm bits, pow_add, Nat.mod_mul, Nat.mul_add_mod, Nat.mod_eq_of_lt hbyte,
    Nat.mul_add_div (by norm_num), Nat.div_eq_of_lt hbyte, Nat.add_zero]
  ring

theorem regroup_loop_spec {bits : ℕ} (hb : bits < 5) (program : List UInt8) :
    ∃ pad < 5, 5 * (regroup_loop acc bits program).length = bits + 8 * program.length + pad ∧
      number 32 (regroup_loop acc bits program) =
        (acc % 2 ^ bits * 256 ^ program.length + byte_number program) * 2 ^ pad ∧
      ∀ d ∈ regroup_loop acc bits program, d < 32 := by
  induction program generalizing acc bits with
  | nil =>
    rw [regroup_loop]
    by_cases h0 : 0 < bits
    · have hgroup : (acc <<< (5 - bits)) &&& 0x1f = acc % 2 ^ bits * 2 ^ (5 - bits) := by
        have hpow : 2 ^ bits * 2 ^ (5 - bits) = 2 ^ 5 := by
          rw [← pow_add]
          congr 1
          omega
        rw [Nat.shiftLeft_eq, ← Nat.mul_mod_mul_right, hpow]
        exact and_mask _ 5
      refine ⟨5 - bits, by omega, ?_, ?_, ?_⟩
      · rw [if_pos h0, List.length_singleton, List.length_nil]
        omega
      · rw [if_pos h0, number_cons, number_nil, hgroup]
        simp [byte_number]
      · rw [if_pos h0]
        intro d hd
        rw [List.mem_singleton.mp hd]
        exact (and_mask _ 5).trans_lt (Nat.mod_lt _ (by norm_num))
    · obtain rfl : bits = 0 := by omega
      exact ⟨0, by norm_num, by simp, by simp [byte_number, Nat.mod_one], by simp⟩
  | cons byte program ih =>
    rw [regroup_loop]
    generalize hacc : (acc <<< 8 ||| byte.toNat) % 2 ^ 32 = next
    obtain ⟨hlt, hlen, hnumber, hsmall⟩ := emit_groups_spec next (le_refl (bits + 8))
    generalize emit_groups next (bits + 8) (bits + 8) = groups at hlt hlen hnumber hsmall
    obtain ⟨pad, hpad, hcount, hrest, hrsmall⟩ := ih next hlt
    have hbits : next % 2 ^ (bits + 8) = acc % 2 ^ bits * 256 + byte.toNat := by
      rw [← hacc]
      exact acc_byte acc bits byte (by omega)
    refine ⟨pad, hpad, ?_, ?_, ?_⟩
    · rw [List.length_append, List.length_cons]
      omega
    · have hlow : next % 2 ^ groups.2 = next % 2 ^ (bits + 8) % 2 ^ groups.2 :=
        (Nat.mod_mod_of_dvd _ (pow_dvd_pow 2 (by omega))).symm
      have hpow : (32 : ℕ) ^ (regroup_loop next groups.2 program).length =
        2 ^ groups.2 * 256 ^ program.length * 2 ^ pad := by
        rw [show (32 : ℕ) = 2 ^ 5 by norm_num, show (256 : ℕ) = 2 ^ 8 by norm_num, ← pow_mul, ← pow_mul, ← pow_add,
          ← pow_add,
          hcount]
      have hsplit := Nat.div_add_mod (next % 2 ^ (bits + 8)) (2 ^ groups.2)
      rw [number_append, hnumber, hrest, hlow, hpow, byte_number_cons, List.length_cons]
      rw [hbits] at hsplit ⊢
      generalize (acc % 2 ^ bits * 256 + byte.toNat) / 2 ^ groups.2 = high at hsplit ⊢
      generalize (acc % 2 ^ bits * 256 + byte.toNat) % 2 ^ groups.2 = low at hsplit ⊢
      calc _ = ((2 ^ groups.2 * high + low) * 256 ^ program.length + byte_number program) * 2 ^ pad := by ring
        _ = _ := by
          rw [hsplit]
          ring
    · intro d hd
      rcases List.mem_append.mp hd with hd | hd
      · exact hsmall d hd
      · exact hrsmall d hd

theorem regroup_spec (program : List UInt8) : ∃ pad < 5, 5 * (regroup program).length = 8 * program.length + pad ∧
    number 32 (regroup program) = byte_number program * 2 ^ pad ∧ ∀ d ∈ regroup program, d < 32 := by
  obtain ⟨pad, hpad, hlen, hnumber, hsmall⟩ := regroup_loop_spec 0 (show 0 < 5 by norm_num) program
  refine ⟨pad, hpad, by rw [regroup]; omega, ?_, hsmall⟩
  rw [regroup, hnumber, Nat.zero_mod, Nat.zero_mul, Nat.zero_add]

theorem acc_group (acc bits : ℕ) (hv : v < 32) (h : bits + 5 ≤ 32) :
    ((acc <<< 5 ||| v) % 2 ^ 32) % 2 ^ (bits + 5) = acc % 2 ^ bits * 32 + v := by
  have hgroup : v < 2 ^ 5 := hv
  rw [Nat.shiftLeft_eq, Nat.mul_comm acc, ← Nat.two_pow_add_eq_or_of_lt hgroup,
    Nat.mod_mod_of_dvd _ (pow_dvd_pow 2 h),
    Nat.add_comm bits, pow_add, Nat.mod_mul, Nat.mul_add_mod, Nat.mod_eq_of_lt hgroup,
    Nat.mul_add_div (by norm_num), Nat.div_eq_of_lt hgroup, Nat.add_zero]
  ring

theorem quotient_unique {q q' r r' m : ℕ} (hr : r < m) (hr' : r' < m) (h : q * m + r = q' * m + r') : q = q' := by
  have hdiv (q r : ℕ) (hr : r < m) : (q * m + r) / m = q := by
    rw [Nat.add_comm, Nat.add_mul_div_right _ _ (Nat.zero_lt_of_lt hr), Nat.div_eq_of_lt hr, Nat.zero_add]
  rw [← hdiv q r hr, h, hdiv q' r' hr']

theorem bytes_loop_iff {bits : ℕ} (hb : bits < 8) (hsmall : ∀ v ∈ values, v < 32) (program : List UInt8) :
    bytes_loop acc bits values = some program ↔
      ∃ pad < 5, bits + 5 * values.length = 8 * program.length + pad ∧
        acc % 2 ^ bits * 32 ^ values.length + number 32 values = byte_number program * 2 ^ pad := by
  induction values generalizing acc bits program with
  | nil =>
    have hmask : (acc <<< (8 - bits)) &&& 0xff = acc % 2 ^ bits * 2 ^ (8 - bits) := by
      have hpow : 2 ^ bits * 2 ^ (8 - bits) = 2 ^ 8 := by
        rw [← pow_add]
        congr 1
        omega
      rw [Nat.shiftLeft_eq, ← Nat.mul_mod_mul_right, hpow]
      exact and_mask _ 8
    rw [bytes_loop, hmask]
    by_cases hbad : 5 ≤ bits ∨ acc % 2 ^ bits * 2 ^ (8 - bits) ≠ 0
    · rw [if_pos hbad]
      constructor
      · intro h
        cases h
      · rintro ⟨pad, hpad, hlen, hnumber⟩
        exfalso
        have hp : program = [] := List.eq_nil_of_length_eq_zero (by rw [List.length_nil] at hlen; omega)
        subst hp
        rw [List.length_nil, List.length_nil, pow_zero, Nat.mul_one, number_nil] at *
        have hz : byte_number [] = 0 := rfl
        rw [hz, Nat.zero_mul, Nat.add_zero] at hnumber
        rcases hbad with h | h
        · omega
        · exact h (by rw [hnumber, Nat.zero_mul])
    · push Not at hbad
      have hzero : acc % 2 ^ bits = 0 := by
        rcases Nat.mul_eq_zero.mp hbad.2 with h | h
        · exact h
        · exact absurd h (by positivity)
      rw [if_neg (by push Not; exact hbad), Option.some.injEq]
      constructor
      · rintro rfl
        exact ⟨bits, hbad.1, by simp, by rw [hzero]; simp [byte_number]⟩
      · rintro ⟨pad, -, hlen, -⟩
        exact (List.eq_nil_of_length_eq_zero (by rw [List.length_nil] at hlen; omega)).symm
  | cons v values ih =>
    have hv := hsmall v List.mem_cons_self
    have hrest (w : ℕ) (hw : w ∈ values) : w < 32 := hsmall w (List.mem_cons_of_mem _ hw)
    have hbits := acc_group acc bits hv (by omega)
    rw [bytes_loop]
    generalize (acc <<< 5 ||| v) % 2 ^ 32 = next at hbits ⊢
    have htotal : acc % 2 ^ bits * 32 ^ (v :: values).length + number 32 (v :: values) =
        next % 2 ^ (bits + 5) * 32 ^ values.length + number 32 values := by
      rw [hbits, number_cons, List.length_cons, pow_succ]
      ring
    rw [htotal]
    by_cases h8 : 8 ≤ bits + 5
    · rw [if_pos h8]
      have hbyte : (UInt8.ofNat (next >>> (bits + 5 - 8))).toNat = next % 2 ^ (bits + 5) / 2 ^ (bits + 5 - 8) := by
        have hpow : 2 ^ (bits + 5) = 2 ^ (bits + 5 - 8) * 256 := by
          rw [show (256 : ℕ) = 2 ^ 8 by norm_num, ← pow_add, Nat.sub_add_cancel h8]
        rw [UInt8.toNat_ofNat', Nat.shiftRight_eq_div_pow, hpow, Nat.mod_mul_right_div_self]
      have hlow : next % 2 ^ (bits + 5 - 8) = next % 2 ^ (bits + 5) % 2 ^ (bits + 5 - 8) :=
        (Nat.mod_mod_of_dvd _ (pow_dvd_pow 2 (by omega))).symm
      have hsplit := Nat.div_add_mod (next % 2 ^ (bits + 5)) (2 ^ (bits + 5 - 8))
      rw [← hlow] at hsplit
      have hvalues := number_lt hrest
      -- the groups after the byte, as one number below the byte's place
      have hbelow : next % 2 ^ (bits + 5 - 8) * 32 ^ values.length + number 32 values <
          2 ^ (bits + 5 - 8) * 32 ^ values.length := by
        have hlt := Nat.mod_lt next (show 0 < 2 ^ (bits + 5 - 8) by positivity)
        calc _ < next % 2 ^ (bits + 5 - 8) * 32 ^ values.length + 32 ^ values.length := Nat.add_lt_add_left hvalues _
          _ = (next % 2 ^ (bits + 5 - 8) + 1) * 32 ^ values.length := by ring
          _ ≤ _ := Nat.mul_le_mul_right _ hlt
      have hplace : next % 2 ^ (bits + 5) * 32 ^ values.length + number 32 values =
          next % 2 ^ (bits + 5) / 2 ^ (bits + 5 - 8) * (2 ^ (bits + 5 - 8) * 32 ^ values.length) +
            (next % 2 ^ (bits + 5 - 8) * 32 ^ values.length + number 32 values) := by
        conv_lhs => rw [← hsplit]
        ring
      have hunit (n pad : ℕ) (hn : bits + 5 - 8 + 5 * values.length = 8 * n + pad) :
          (2 : ℕ) ^ (bits + 5 - 8) * 32 ^ values.length = 256 ^ n * 2 ^ pad := by
        rw [show (32 : ℕ) = 2 ^ 5 by norm_num, show (256 : ℕ) = 2 ^ 8 by norm_num, ← pow_mul, ← pow_mul, ← pow_add,
          ← pow_add, hn]
      constructor
      · intro h
        obtain ⟨rest, hloop, rfl⟩ := Option.map_eq_some_iff.mp h
        obtain ⟨pad, hpad, hlen, hnumber⟩ := (ih next (by omega) hrest rest).mp hloop
        refine ⟨pad, hpad, by rw [List.length_cons, List.length_cons]; omega, ?_⟩
        rw [hplace, hnumber, hunit _ _ hlen, byte_number_cons, hbyte]
        ring
      · rintro ⟨pad, hpad, hlen, hnumber⟩
        rw [List.length_cons] at hlen
        cases program with
        | nil =>
          rw [List.length_nil] at hlen
          omega
        | cons byte rest =>
          rw [List.length_cons] at hlen
          have hn : bits + 5 - 8 + 5 * values.length = 8 * rest.length + pad := by omega
          rw [hplace, byte_number_cons, Nat.add_mul, Nat.mul_assoc byte.toNat, ← hunit _ _ hn] at hnumber
          rw [hunit _ _ hn] at hbelow hnumber
          have hsmallrest : byte_number rest * 2 ^ pad < 256 ^ rest.length * 2 ^ pad :=
            Nat.mul_lt_mul_of_pos_right (byte_number_lt rest) (by positivity)
          have hsame : next % 2 ^ (bits + 5) / 2 ^ (bits + 5 - 8) = byte.toNat :=
            quotient_unique hbelow hsmallrest hnumber
          have hfirst : UInt8.ofNat (next >>> (bits + 5 - 8)) = byte := UInt8.toNat_inj.mp (hbyte.trans hsame)
          rw [hsame] at hnumber
          have hloop := (ih next (by omega) hrest rest).mpr ⟨pad, hpad, hn, Nat.add_left_cancel hnumber⟩
          rw [hloop, hfirst]
          rfl
    · rw [if_neg h8, ih next (by omega) hrest program]
      have hcount : bits + 5 * (v :: values).length = bits + 5 + 5 * values.length := by
        rw [List.length_cons]
        ring
      rw [hcount]

theorem regroup_bytes_iff (hsmall : ∀ v ∈ values, v < 32) (program : List UInt8) :
    regroup_bytes values = some program ↔ values = regroup program := by
  obtain ⟨pad, hpad, hlen, hnumber, hgroups⟩ := regroup_spec program
  rw [regroup_bytes, bytes_loop_iff 0 (by norm_num) hsmall program]
  simp only [Nat.zero_mod, Nat.zero_mul, Nat.zero_add]
  constructor
  · rintro ⟨pad', hpad', hlen', hnumber'⟩
    have hsame : pad = pad' := by omega
    subst hsame
    exact number_inj hsmall hgroups (by omega) (hnumber'.trans hnumber.symm)
  · rintro rfl
    exact ⟨pad, hpad, hlen, hnumber⟩

end Regroup

end AvilaNode.Address
