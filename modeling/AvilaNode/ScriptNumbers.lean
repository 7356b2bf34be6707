import AvilaNode.ScriptBytes

/-! Script numbers: what is read back of a number that was written, and of an element that is false. -/

namespace AvilaNode.Interpreter

open ByteStrings

variable {k : ℤ} {fuel : ℕ} (w : List UInt8) (b : UInt8)

/-- The sign bit of a byte against the seven bits below it. -/
theorem byte_sign : ∀ b : UInt8, (b &&& 0x80 = 0 ↔ b < 0x80) ∧
    (b.toNat = (b &&& 0x7f).toNat + if 0x80 ≤ b then 128 else 0) ∧
    ((b != 0 && b != 0x80) = true ↔ (b &&& 0x7f).toNat ≠ 0) ∧
    (b < 0x80 → b &&& 0x7f = b ∧ 0x80 ≤ b ||| 0x80 ∧ (b ||| 0x80) &&& 0x7f = b) ∧
    (0x80 ≤ b → b &&& 0x7f < 0x80 ∧ b &&& 0x7f ||| 0x80 = b ∧ (b &&& 0x7f = 0 → b = 0x80)) :=
  forall_byte (by decide +kernel)

theorem and_sign : b &&& 0x80 = 0 ↔ b < 0x80 := (byte_sign b).1

theorem value_append (v w : List UInt8) : value (v ++ w) = value v + 256 ^ v.length * value w := by
  induction v with
  | nil => simp
  | cons b v ih => rw [List.cons_append, value_cons, ih, value_cons, List.length_cons, pow_succ]; ring

theorem toNat_fold (v : List UInt8) (i : ℕ) (acc : BitVec 64) (hacc : acc.toNat < 256 ^ i) (hlen : i + v.length ≤ 8) :
    ((v.zipIdx i).foldl (fun value b => value ||| BitVec.ofNat 64 b.1.toNat <<< (8 * b.2)) acc).toNat =
      acc.toNat + 256 ^ i * value v := by
  induction v generalizing i acc with
  | nil => simp
  | cons b v ih =>
    have hb := b.toNat_lt
    have hpow : (2 : ℕ) ^ (8 * i) = 256 ^ i := by rw [pow_mul]; rfl
    have hfit : 256 ^ i * b.toNat + 256 ^ i ≤ 256 ^ (i + 1) := by
      calc 256 ^ i * b.toNat + 256 ^ i = 256 ^ i * (b.toNat + 1) := by ring
        _ ≤ 256 ^ i * 256 := Nat.mul_le_mul_left _ hb
        _ = 256 ^ (i + 1) := (pow_succ 256 i).symm
    have htop : (256 : ℕ) ^ (i + 1) ≤ 2 ^ 64 := by
      have h64 : (2 : ℕ) ^ 64 = 256 ^ 8 := by norm_num
      rw [List.length_cons] at hlen
      rw [h64]
      exact Nat.pow_le_pow_right (by decide) (by omega)
    have hterm : (BitVec.ofNat 64 b.toNat <<< (8 * i)).toNat = 256 ^ i * b.toNat := by
      have hsmall : 256 ^ i * b.toNat < 2 ^ 64 := by omega
      rw [BitVec.toNat_shiftLeft, BitVec.toNat_ofNat, Nat.mod_eq_of_lt (by omega : b.toNat < 2 ^ 64),
        Nat.shiftLeft_eq, hpow, Nat.mul_comm, Nat.mod_eq_of_lt hsmall]
    have hor : (acc ||| BitVec.ofNat 64 b.toNat <<< (8 * i)).toNat = acc.toNat + 256 ^ i * b.toNat := by
      rw [BitVec.toNat_or, hterm, ← hpow, Nat.or_comm, ← Nat.two_pow_add_eq_or_of_lt (by rwa [hpow]),
        Nat.add_comm]
    rw [List.zipIdx_cons, List.foldl_cons,
      ih (i + 1) _ (by rw [hor]; omega) (by rw [List.length_cons] at hlen; omega),
      hor, value_cons, pow_succ]
    ring

/-- The top bit of the last byte is the sign of the bits below it. -/
def sign_magnitude (v : List UInt8) : ℤ :=
  let magnitude : ℕ := value (v.dropLast ++ [v.getLastD 0 &&& 0x7f])
  if 0x80 ≤ v.getLastD 0 then -magnitude else magnitude

/-- A last byte without magnitude is there for the sign alone: the byte below it has no bit left for one. -/
def Shortest (v : List UInt8) : Prop :=
  v.getLastD 0 &&& 0x7f = 0 → v = [] ∨ 0x80 ≤ v.dropLast.getLastD 0

theorem toNat_low : b.toNat = (b &&& 0x7f).toNat + if 0x80 ≤ b then 128 else 0 :=
  (byte_sign b).2.1

theorem clear_bit {x : BitVec 64} {y k : ℕ} (hy : y < 2 ^ k) (hk : k < 64) (hx : x.toNat = y + 2 ^ k) :
    (x &&& ~~~BitVec.twoPow 64 k).toInt = y := by
  have hlow : x &&& ~~~BitVec.twoPow 64 k = BitVec.ofNat 64 y := by
    ext i hi
    have hbit : x[i] = (2 ^ k + y).testBit i := by
      rw [← BitVec.getLsbD_eq_getElem, BitVec.getLsbD, hx, Nat.add_comm]
    have hlow : (BitVec.ofNat 64 y)[i] = y.testBit i := by
      rw [← BitVec.getLsbD_eq_getElem, BitVec.getLsbD_ofNat, decide_eq_true hi, Bool.true_and]
    rw [BitVec.getElem_and, BitVec.getElem_not, BitVec.getElem_twoPow, hlow, hbit]
    rcases Nat.lt_trichotomy i k with h | rfl | h
    · simp [Nat.testBit_two_pow_add_gt h, h.ne]
    · simp [Nat.testBit_lt_two_pow hy]
    · have hle : 2 ^ (k + 1) ≤ 2 ^ i := Nat.pow_le_pow_right (by decide) h
      rw [pow_succ] at hle
      simp [Nat.testBit_lt_two_pow (show 2 ^ k + y < 2 ^ i by omega), Nat.testBit_lt_two_pow (show y < 2 ^ i by omega)]
  rw [hlow, BitVec.toInt_eq_toNat_of_lt] <;> rw [BitVec.toNat_ofNat, Nat.mod_eq_of_lt (by omega)]
  omega

variable {minimal : Bool} {size n : ℕ} {v : List UInt8}

theorem sign_magnitude_concat : sign_magnitude (w ++ [b]) =
    if 0x80 ≤ b then -(value (w ++ [b &&& 0x7f]) : ℤ) else value (w ++ [b &&& 0x7f]) := by
  simp [sign_magnitude]

theorem value_concat : value (w ++ [b]) = value w + 256 ^ w.length * b.toNat := by
  simp [value_append]

theorem value_concat_zero : value (w ++ [0]) = value w := by
  simp [value_concat]

theorem script_num_value (hlen : v.length ≤ 8) :
    (if !v.isEmpty && v.getLastD 0 &&& 0x80 != 0 then
      -(v.zipIdx.foldl (fun value b => value ||| BitVec.ofNat 64 b.1.toNat <<< (8 * b.2)) (0 : BitVec 64) &&&
        ~~~((0x80 : BitVec 64) <<< (8 * (v.length - 1)))).toInt
    else (v.zipIdx.foldl (fun value b => value ||| BitVec.ofNat 64 b.1.toNat <<< (8 * b.2)) (0 : BitVec 64)).toInt) =
      sign_magnitude v := by
  have hfold := toNat_fold v 0 0 (by simp) (by omega)
  generalize v.zipIdx.foldl (fun value b => value ||| BitVec.ofNat 64 b.1.toNat <<< (8 * b.2)) (0 : BitVec 64) = x at *
  have hx : x.toNat = value v := by simpa using hfold
  obtain rfl | ⟨w, b, rfl⟩ := List.eq_nil_or_concat' v
  · rw [BitVec.eq_of_toNat_eq (y := 0) hx]
    rfl
  rw [value_concat, toNat_low] at hx
  rw [List.length_append, List.length_singleton] at hlen
  have hw := value_lt w
  have hpow : (2 : ℕ) ^ (8 * w.length + 7) = 256 ^ w.length * 128 := by rw [pow_add, pow_mul]; rfl
  have hlow : value (w ++ [b &&& 0x7f]) < 2 ^ (8 * w.length + 7) := by
    have hle : (b &&& 0x7f).toNat + 1 ≤ 128 := by
      rw [UInt8.toNat_and]
      exact Nat.lt_succ_of_le Nat.and_le_right
    have hmul := Nat.mul_le_mul_left (256 ^ w.length) hle
    rw [Nat.mul_add_one] at hmul
    rw [value_concat]
    omega
  rw [sign_magnitude_concat, List.getLastD_concat, List.length_append, List.length_singleton, Nat.add_sub_cancel]
  by_cases hb : 0x80 ≤ b
  · have hshift : (0x80 : BitVec 64) <<< (8 * w.length) = BitVec.twoPow 64 (8 * w.length + 7) := by
      rw [BitVec.twoPow_eq, Nat.add_comm, BitVec.shiftLeft_add]
      rfl
    rw [if_pos hb] at hx
    rw [if_pos (by simpa [and_sign] using hb), if_pos hb, hshift, clear_bit hlow (by omega)]
    rw [hx, hpow, value_concat]
    ring
  · rw [if_neg hb, Nat.add_zero] at hx
    have htop : (2 : ℕ) ^ (8 * w.length + 7) ≤ 2 ^ 63 := Nat.pow_le_pow_right (by decide) (by omega)
    rw [← value_concat] at hx
    rw [if_neg (by simpa [and_sign] using hb), if_neg hb, BitVec.toInt_eq_toNat_of_lt (by omega), hx]

theorem script_num_eq_ok (hsize : size ≤ 8) :
    script_num v minimal size = .ok k ↔ v.length ≤ size ∧ (minimal = true → Shortest v) ∧ k = sign_magnitude v := by
  have hbelow : (decide (v.length ≤ 1) || v.getD (v.length - 2) 0 &&& 0x80 == 0) = true ↔
      ¬0x80 ≤ v.dropLast.getLastD 0 := by
    obtain rfl | ⟨u, b, rfl⟩ := List.eq_nil_or_concat' v
    · decide
    · obtain rfl | ⟨w, c, rfl⟩ := List.eq_nil_or_concat' u
      · simp
      · simp [and_sign]
  have hmin : (minimal && !v.isEmpty && v.getLastD 0 &&& 0x7f == 0
      && (decide (v.length ≤ 1) || v.getD (v.length - 2) 0 &&& 0x80 == 0)) = true ↔
        ¬(minimal = true → Shortest v) := by
    unfold Shortest
    rw [Bool.and_eq_true, hbelow]
    simp only [Bool.and_eq_true, beq_iff_eq, Bool.not_eq_true', List.isEmpty_eq_false_iff]
    tauto
  rw [script_num]
  by_cases hlong : size < v.length
  · rw [if_pos hlong]
    exact iff_of_false (by simp) fun h => absurd h.1 (Nat.not_le.mpr hlong)
  rw [if_neg hlong, ← script_num_value ((Nat.not_lt.mp hlong).trans hsize)]
  by_cases hm : minimal = true → Shortest v
  · rw [if_neg (by rwa [hmin, not_not]), ← apply_ite Except.ok, Except.ok.injEq, eq_comm]
    exact ⟨fun hk => ⟨Nat.not_lt.mp hlong, hm, hk⟩, fun h => h.2.2⟩
  · rw [if_pos (hmin.mpr hm)]
    exact iff_of_false (by simp) fun h => hm h.2.1

theorem cast_to_bool_iff : cast_to_bool v = true ↔ sign_magnitude v ≠ 0 := by
  obtain rfl | ⟨w, b, rfl⟩ := List.eq_nil_or_concat' v
  · decide
  have hlast := (byte_sign b).2.2.1
  have hcast : cast_to_bool (w ++ [b]) = true ↔ value w ≠ 0 ∨ (b &&& 0x7f).toNat ≠ 0 := by
    induction w with
    | nil => simpa [cast_to_bool] using hlast
    | cons a w ih =>
      have ha : a = 0 ↔ a.toNat = 0 := UInt8.toNat_inj.symm
      rw [List.cons_append, cast_to_bool, Bool.or_eq_true, ih, bne_iff_ne, ne_eq, ha, value_cons]
      · omega
      · simp
  have hzero : sign_magnitude (w ++ [b]) = 0 ↔ value w = 0 ∧ (b &&& 0x7f).toNat = 0 := by
    have hpow : 256 ^ w.length ≠ 0 := (Nat.pow_pos (by decide)).ne'
    rw [sign_magnitude_concat, ← or_iff_right (b := (b &&& 0x7f).toNat = 0) hpow, ← mul_eq_zero, ← Nat.add_eq_zero_iff,
      ← value_concat]
    split <;> simp only [neg_eq_zero, Nat.cast_eq_zero]
  rw [hcast, ← not_and_or, ← hzero]

theorem sign_magnitude_lt (v : List UInt8) : (sign_magnitude v).natAbs < 256 ^ v.length := by
  obtain rfl | ⟨w, b, rfl⟩ := List.eq_nil_or_concat' v
  · decide
  · have hlt := value_lt (w ++ [b &&& 0x7f])
    have hsign := sign_magnitude_concat w b
    rw [List.length_append, List.length_singleton] at hlt ⊢
    split at hsign <;> omega

theorem script_num_of_false (hsize : size ≤ 5) (hv : cast_to_bool v = false) (h : script_num v minimal size = .ok k) :
    k = 0 := by
  rw [((script_num_eq_ok (by omega)).mp h).2.2]
  by_contra hne
  rw [cast_to_bool_iff.mpr hne] at hv
  cases hv

theorem script_num_natAbs_lt (hsize : size ≤ 5) (h : script_num v minimal size = .ok k) :
    k.natAbs < 256 ^ 5 := by
  obtain ⟨hlen, -, rfl⟩ := (script_num_eq_ok (by omega)).mp h
  exact (sign_magnitude_lt v).trans_le (Nat.pow_le_pow_right (by decide) (hlen.trans hsize))

theorem length_le_bytes_le (fuel n : ℕ) : (le_bytes fuel n).length ≤ fuel := by
  induction fuel generalizing n with
  | zero => simp [le_bytes]
  | succ fuel ih =>
    rw [le_bytes]
    split
    · simp
    · simpa using ih (n / 256)

theorem value_le_bytes (h : n < 256 ^ fuel) : value (le_bytes fuel n) = n := by
  induction fuel generalizing n with
  | zero =>
    rw [pow_zero, Nat.lt_one_iff] at h
    rw [h]
    rfl
  | succ fuel ih =>
    rw [le_bytes]
    split
    · next hn => rw [hn, value_nil]
    · have hdiv : n / 256 < 256 ^ fuel := Nat.div_lt_of_lt_mul (by rwa [pow_succ'] at h)
      rw [value_cons, ih hdiv, UInt8.toNat_ofNat', Nat.mod_mod_of_dvd _ (by decide)]
      exact Nat.mod_add_div n 256

theorem le_bytes_eq (h : n < 256 ^ fuel) (more : ℕ) : le_bytes (fuel + more) n = le_bytes fuel n := by
  induction fuel generalizing n with
  | zero =>
    rw [pow_zero, Nat.lt_one_iff] at h
    subst h
    cases more with
    | zero => rfl
    | succ more => rw [Nat.zero_add, le_bytes, le_bytes, if_pos rfl]
  | succ fuel ih =>
    have hdiv : n / 256 < 256 ^ fuel := Nat.div_lt_of_lt_mul (by rwa [pow_succ'] at h)
    rw [Nat.add_right_comm, le_bytes, le_bytes, ih hdiv]

theorem le_bytes_zero (fuel : ℕ) : le_bytes fuel 0 = [] := by
  cases fuel <;> rfl

theorem le_bytes_value {w : List UInt8} {b : UInt8} (hb : b ≠ 0) (h : w.length < fuel) :
    le_bytes fuel (value (w ++ [b])) = w ++ [b] ∧ value (w ++ [b]) ≠ 0 := by
  induction w generalizing fuel with
  | nil =>
    obtain ⟨fuel, rfl⟩ := Nat.exists_eq_add_of_lt h
    have hpos : b.toNat ≠ 0 := UInt8.toNat_inj.not.mpr hb
    have hfit := b.toNat_lt
    simp [le_bytes, le_bytes_zero, hpos, Nat.mod_eq_of_lt hfit, Nat.div_eq_of_lt hfit]
  | cons a w ih =>
    rw [List.length_cons] at h
    obtain ⟨fuel, rfl⟩ := Nat.exists_eq_add_of_lt h
    obtain ⟨hih, hpos⟩ := @ih (w.length + 1 + fuel) (by omega)
    have hfit := a.toNat_lt
    have hne : a.toNat + 256 * value (w ++ [b]) ≠ 0 := by omega
    rw [List.cons_append, value_cons, le_bytes, if_neg hne, Nat.add_mul_mod_self_left, Nat.mod_eq_of_lt hfit,
      UInt8.ofNat_toNat, Nat.add_mul_div_left _ _ (by decide), Nat.div_eq_of_lt hfit, Nat.zero_add, hih]
    exact ⟨rfl, hne⟩

theorem le_bytes_last (hn : n ≠ 0) (h : n < 256 ^ fuel) : ∃ w b, le_bytes fuel n = w ++ [b] ∧ b ≠ 0 := by
  induction fuel generalizing n with
  | zero => omega
  | succ fuel ih =>
    rw [le_bytes, if_neg hn]
    by_cases hdiv : n / 256 = 0
    · rw [hdiv, le_bytes_zero]
      refine ⟨[], _, rfl, fun hb => ?_⟩
      have hzero := congrArg UInt8.toNat hb
      rw [UInt8.toNat_ofNat', UInt8.toNat_zero] at hzero
      omega
    · obtain ⟨w, b, hb, hne⟩ := ih hdiv (Nat.div_lt_of_lt_mul (by rwa [pow_succ'] at h))
      exact ⟨_ :: w, b, by rw [hb, List.cons_append], hne⟩

theorem sign_bit :
    (b < 0x80 → b &&& 0x7f = b ∧ 0x80 ≤ b ||| 0x80 ∧ (b ||| 0x80) &&& 0x7f = b) ∧
    (0x80 ≤ b → b &&& 0x7f < 0x80 ∧ b &&& 0x7f ||| 0x80 = b ∧ (b &&& 0x7f = 0 → b = 0x80)) :=
  (byte_sign b).2.2.2

theorem encode_of_magnitude {w : List UInt8} {b : UInt8} (hb : b ≠ 0) (hlen : w.length < 8)
    (hk : k.natAbs = value (w ++ [b])) : encode_script_num k =
      if 0x80 ≤ b then w ++ [b] ++ [if k < 0 then 0x80 else 0] else w ++ [if k < 0 then b ||| 0x80 else b] := by
  obtain ⟨hbytes, hne⟩ := le_bytes_value hb hlen
  have hzero : k ≠ 0 := by omega
  simp only [encode_script_num, if_neg hzero, hk, hbytes, List.getLastD_concat, List.dropLast_concat]
  split_ifs <;> rfl

theorem encode_sign_magnitude (hs : Shortest v) (hlen : v.length ≤ 8) : encode_script_num (sign_magnitude v) = v := by
  obtain rfl | ⟨w, b, rfl⟩ := List.eq_nil_or_concat' v
  · rfl
  rw [List.length_append, List.length_singleton] at hlen
  obtain ⟨hlow, hhigh⟩ := sign_bit b
  have hsign := sign_magnitude_concat w b
  by_cases hb : b &&& 0x7f = 0
  · have htop : 0x80 ≤ w.getLastD 0 := by simpa [Shortest, hb] using hs
    obtain rfl | ⟨u, c, rfl⟩ := List.eq_nil_or_concat' w
    · cases htop
    rw [List.getLastD_concat] at htop
    rw [List.length_append, List.length_singleton] at hlen
    have hc : c ≠ 0 := by
      rintro rfl
      cases htop
    rw [hb, value_concat_zero] at hsign
    have hpos := (le_bytes_value hc (show u.length < 8 by omega)).2
    have hk : (sign_magnitude (u ++ [c] ++ [b])).natAbs = value (u ++ [c]) := by
      rw [hsign]
      split <;> omega
    rw [encode_of_magnitude hc (by omega) hk, if_pos htop, hsign]
    by_cases h : 0x80 ≤ b
    · rw [if_pos h, if_pos (by omega), (hhigh h).2.2 hb]
    · rw [if_neg h, if_neg (by omega), ← (hlow (UInt8.not_le.mp h)).1, hb]
  · have hpos := (le_bytes_value hb (show w.length < 8 by omega)).2
    have hk : (sign_magnitude (w ++ [b])).natAbs = value (w ++ [b &&& 0x7f]) := by
      rw [hsign]
      split <;> omega
    rw [encode_of_magnitude hb (by omega) hk, hsign]
    by_cases h : 0x80 ≤ b
    · rw [if_neg (UInt8.not_le.mpr (hhigh h).1), if_pos h, if_pos (by omega), (hhigh h).2.1]
    · have hsame := (hlow (UInt8.not_le.mp h)).1
      rw [hsame, if_neg h, if_neg h, if_neg (by omega)]

theorem sign_magnitude_encode (hk : k.natAbs < 256 ^ 8) :
    sign_magnitude (encode_script_num k) = k ∧ Shortest (encode_script_num k) := by
  by_cases hzero : k = 0
  · subst hzero
    exact ⟨rfl, fun _ => Or.inl rfl⟩
  obtain ⟨w, b, hbytes, hb⟩ := le_bytes_last (Int.natAbs_ne_zero.mpr hzero) hk
  have hvalue : k.natAbs = value (w ++ [b]) := by rw [← hbytes, value_le_bytes hk]
  have hlen := length_le_bytes_le 8 k.natAbs
  rw [hbytes, List.length_append, List.length_singleton] at hlen
  obtain ⟨hlow, hhigh⟩ := sign_bit b
  rw [encode_of_magnitude hb hlen hvalue]
  by_cases htop : 0x80 ≤ b
  · rw [if_pos htop, sign_magnitude_concat]
    refine ⟨?_, fun _ => by simpa using htop⟩
    split
    · rw [if_pos (by decide), show (0x80 : UInt8) &&& 0x7f = 0 from rfl, value_concat_zero]
      omega
    · rw [if_neg (by decide), UInt8.zero_and, value_concat_zero]
      omega
  · obtain ⟨hsame, hset, hclear⟩ := hlow (UInt8.not_le.mp htop)
    rw [if_neg htop, sign_magnitude_concat, Shortest, List.getLastD_concat]
    split
    · rw [hclear]
      exact ⟨by omega, fun h => absurd h hb⟩
    · rw [hsame]
      exact ⟨by omega, fun h => absurd h hb⟩

theorem encode_script_num_inj {m : ℕ} (hn : n < 256 ^ 8) (hm : m < 256 ^ 8)
    (h : encode_script_num n = encode_script_num m) : n = m := by
  have hsame := congrArg sign_magnitude h
  rw [(sign_magnitude_encode (k := n) hn).1, (sign_magnitude_encode (k := m) hm).1] at hsame
  exact_mod_cast hsame

theorem script_num_encode (hn : n < 256 ^ 8) (hsize : size ≤ 5)
    (h : script_num (encode_script_num n) minimal size = .ok k) : k = n := by
  rw [((script_num_eq_ok (by omega)).mp h).2.2, (sign_magnitude_encode (k := n) hn).1]

theorem length_encode_script_num_le (n : ℤ) : (encode_script_num n).length ≤ 9 := by
  have h := length_le_bytes_le 8 n.natAbs
  unfold encode_script_num
  split
  · simp
  dsimp only
  split
  · rw [List.length_append, List.length_singleton]
    omega
  · split
    · rw [List.length_append, List.length_dropLast, List.length_singleton]
      omega
    · omega

/-- Numbers are read back as they were written, and from no other bytes unless any will do. -/
theorem script_num_round_trip (hsize : size ≤ 8) :
    (∀ k, i64_fits k = true → (encode_script_num k).length ≤ size → script_num (encode_script_num k) true size = .ok k) ∧
    (∀ v k, script_num v true size = .ok k → encode_script_num k = v) ∧
    (∀ k, i64_fits k = true → (cast_to_bool (encode_script_num k) = true ↔ k ≠ 0)) ∧
    ∀ v, v.length ≤ size → script_num v false size = .ok (sign_magnitude v) ∧
      (sign_magnitude v = 0 ↔ cast_to_bool v = false) := by
  have hfits {k : ℤ} (hk : i64_fits k = true) : k.natAbs < 256 ^ 8 := by
    rw [i64_fits_iff] at hk
    unfold I64_MIN I64_MAX at hk
    omega
  refine ⟨fun k hk hlen => ?_, fun v k h => ?_, fun k hk => ?_, fun v hlen => ⟨?_, ?_⟩⟩
  · obtain ⟨hvalue, hs⟩ := sign_magnitude_encode (hfits hk)
    exact (script_num_eq_ok hsize).mpr ⟨hlen, fun _ => hs, hvalue.symm⟩
  · obtain ⟨hlen, hs, rfl⟩ := (script_num_eq_ok hsize).mp h
    exact encode_sign_magnitude (hs rfl) (hlen.trans hsize)
  · rw [cast_to_bool_iff, (sign_magnitude_encode (hfits hk)).1]
  · exact (script_num_eq_ok hsize).mpr ⟨hlen, by simp, rfl⟩
  · rw [← not_iff_not, Bool.not_eq_false]
    exact cast_to_bool_iff.symm

theorem script_num_round_trip_operand : script_num (encode_script_num (-255)) true 4 = .ok (-255) :=
  (script_num_round_trip (by decide)).1 (-255) (by decide) (by decide)

end AvilaNode.Interpreter
