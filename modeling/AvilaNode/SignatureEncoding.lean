import AvilaNode.ScriptNumbers

/-! Strict DER: which byte strings are signatures, and what the half order is compared with. -/

namespace AvilaNode.Interpreter

open ByteStrings

def integer (bytes : List UInt8) : ℕ := value bytes.reverse

def NonNegative (bytes : List UInt8) : Prop := bytes ≠ [] ∧ bytes.headD 0 < 0x80

structure MinimalInteger (bytes : List UInt8) : Prop where
  non_negative : NonNegative bytes
  shortest : ∀ other, NonNegative other → integer other = integer bytes → bytes.length ≤ other.length

def der (r s : List UInt8) (hashtype : UInt8) : List UInt8 :=
  0x30 :: UInt8.ofNat (r.length + s.length + 4) :: 0x02 :: UInt8.ofNat r.length ::
    (r ++ 0x02 :: UInt8.ofNat s.length :: (s ++ [hashtype]))

structure StrictDer (sig r s : List UInt8) (hashtype : UInt8) : Prop where
  layout : sig = der r s hashtype
  minimal_r : MinimalInteger r
  minimal_s : MinimalInteger s
  shortest : 9 ≤ sig.length
  longest : sig.length ≤ 73

/-- `||` of the source, whose second side may be the one that panics. -/
def or_else (a b : Option Bool) : Option Bool := a.bind fun x => if x then some true else b

def and_then (a b : Option Bool) : Option Bool := a.bind fun x => if x then b else some false

def byte_is (sig : List UInt8) (i : ℕ) (p : UInt8 → Bool) : Option Bool := sig[i]?.map p

/-- `is_valid_signature_encoding` where an index out of range is a panic. -/
def is_valid_signature_encoding_indexed (sig : List UInt8) : Option Bool :=
  if sig.length < 9 ∨ 73 < sig.length then some false
  else do
    if ← or_else (byte_is sig 0 (· != 0x30)) (byte_is sig 1 (·.toNat != sig.length - 3)) then return false
    let len_r := (← sig[3]?).toNat
    if sig.length ≤ 5 + len_r then return false
    let len_s := (← sig[5 + len_r]?).toNat
    if len_r + len_s + 7 ≠ sig.length then return false
    if ← or_else (byte_is sig 2 (· != 0x02))
        (or_else (some (len_r == 0)) (byte_is sig 4 (· &&& 0x80 != 0))) then return false
    if ← and_then (some (decide (1 < len_r)))
        (and_then (byte_is sig 4 (· == 0x00)) (byte_is sig 5 (· &&& 0x80 == 0))) then return false
    if ← or_else (byte_is sig (len_r + 4) (· != 0x02))
        (or_else (some (len_s == 0)) (byte_is sig (len_r + 6) (· &&& 0x80 != 0))) then return false
    if ← and_then (some (decide (1 < len_s)))
        (and_then (byte_is sig (len_r + 6) (· == 0x00)) (byte_is sig (len_r + 7) (· &&& 0x80 == 0))) then
      return false
    return true

theorem integer_cons (b : UInt8) (bytes : List UInt8) :
    integer (b :: bytes) = b.toNat * 256 ^ bytes.length + integer bytes := by
  unfold integer
  rw [List.reverse_cons, value_append, List.length_reverse, value_cons, value_nil]
  ring

theorem integer_lt (bytes : List UInt8) : integer bytes < 256 ^ bytes.length := by
  have h := value_lt bytes.reverse
  rwa [List.length_reverse] at h

variable {bytes : List UInt8} (sig : List UInt8) {p : Prop} {i : ℕ} {rest : Option Bool} {hashtype : UInt8}

theorem integer_lt_of_nonNegative (h : NonNegative bytes) :
    integer bytes < 128 * 256 ^ (bytes.length - 1) := by
  obtain ⟨hne, hb⟩ := h
  cases bytes with
  | nil => exact absurd rfl hne
  | cons b bytes =>
    have hb : b.toNat < 128 := by simpa [UInt8.lt_iff_toNat_lt] using hb
    have hlt := integer_lt bytes
    have hle : b.toNat * 256 ^ bytes.length ≤ 127 * 256 ^ bytes.length := Nat.mul_le_mul_right _ (by omega)
    rw [integer_cons, List.length_cons, Nat.add_sub_cancel]
    omega

theorem minimalInteger_iff (bytes : List UInt8) :
    MinimalInteger bytes ↔ bytes ≠ [] ∧ bytes.getD 0 0 < 0x80 ∧
      (1 < bytes.length → bytes.getD 0 0 = 0 → ¬bytes.getD 1 0 < 0x80) := by
  cases bytes with
  | nil => exact ⟨fun h => absurd rfl h.non_negative.1, fun h => absurd rfl h.1⟩
  | cons b rest =>
    cases rest with
    | nil =>
      have hone : MinimalInteger [b] ↔ b < 0x80 := by
        refine ⟨fun h => h.non_negative.2, fun h => ⟨⟨by simp, h⟩, fun other hother _ => ?_⟩⟩
        exact List.length_pos_iff.mpr hother.1
      simpa using hone
    | cons c rest =>
      simp only [List.getD_cons_zero, List.getD_cons_succ, List.length_cons, ne_eq, reduceCtorEq,
        not_false_eq_true, true_and]
      constructor
      · intro h
        refine ⟨h.non_negative.2, fun _ hb hc => ?_⟩
        -- the bytes without the zero are shorter and say the same
        have hshort := h.shortest (c :: rest) ⟨by simp, hc⟩ (by rw [integer_cons b, hb]; simp)
        simp at hshort
      · rintro ⟨hb, hlead⟩
        refine ⟨⟨by simp, hb⟩, fun other hother heq => ?_⟩
        by_contra hlt
        have hother := integer_lt_of_nonNegative hother
        have hfew : other.length - 1 ≤ rest.length := by simp only [List.length_cons] at hlt; omega
        have hbound : 128 * 256 ^ (other.length - 1) ≤ 128 * 256 ^ rest.length :=
          Nat.mul_le_mul_left _ (Nat.pow_le_pow_right (by decide) hfew)
        have hmany : 128 * 256 ^ rest.length ≤ integer (b :: c :: rest) := by
          rw [integer_cons, integer_cons, List.length_cons, pow_succ]
          by_cases hzero : b = 0
          · have hc : 128 ≤ c.toNat := by simpa [UInt8.lt_iff_toNat_lt] using hlead (by omega) hzero
            have hmul := Nat.mul_le_mul_right (256 ^ rest.length) hc
            omega
          · have hb : 1 ≤ b.toNat := by
              have hne : b.toNat ≠ 0 := fun hz => hzero (UInt8.toNat_inj.mp hz)
              omega
            have hmul := Nat.mul_le_mul_right (256 ^ rest.length * 256) hb
            omega
        omega

theorem length_der (r s : List UInt8) (hashtype : UInt8) : (der r s hashtype).length = r.length + s.length + 7 := by
  simp [der]
  omega

theorem exists_cut (m n : ℕ) (h : sig.length = m + n + 7) :
    ∃ b0 b1 b2 b3 r x y s z, sig = b0 :: b1 :: b2 :: b3 :: (r ++ x :: y :: (s ++ [z])) ∧
      r.length = m ∧ s.length = n := by
  obtain ⟨b0, b1, b2, b3, rest, rfl⟩ : ∃ b0 b1 b2 b3 rest, sig = b0 :: b1 :: b2 :: b3 :: rest := by
    rcases sig with _ | ⟨b0, _ | ⟨b1, _ | ⟨b2, _ | ⟨b3, rest⟩⟩⟩⟩
    · simp only [List.length_nil] at h; omega
    · simp only [List.length_cons, List.length_nil] at h; omega
    · simp only [List.length_cons, List.length_nil] at h; omega
    · simp only [List.length_cons, List.length_nil] at h; omega
    · exact ⟨b0, b1, b2, b3, rest, rfl⟩
  simp only [List.length_cons] at h
  have hdrop : (rest.drop m).length = n + 3 := by rw [List.length_drop]; omega
  obtain ⟨x, y, tail, htail⟩ : ∃ x y tail, rest.drop m = x :: y :: tail := by
    rcases hd : rest.drop m with _ | ⟨x, _ | ⟨y, tail⟩⟩
    · rw [hd] at hdrop; simp at hdrop
    · rw [hd] at hdrop; simp at hdrop
    · exact ⟨x, y, tail, rfl⟩
  rw [htail] at hdrop
  simp only [List.length_cons] at hdrop
  have hne : tail ≠ [] := List.ne_nil_of_length_pos (by omega)
  refine ⟨b0, b1, b2, b3, rest.take m, x, y, tail.dropLast, tail.getLast hne, ?_, ?_, ?_⟩
  · rw [List.dropLast_append_getLast, ← htail, List.take_append_drop]
  · rw [List.length_take]; omega
  · rw [List.length_dropLast]; omega

theorem reject_iff [Decidable p] {b : Bool} : (if p then false else b) = true ↔ ¬p ∧ b = true := by
  by_cases h : p <;> simp [h]

section Cut

variable (b0 b1 b2 b3 x y z : UInt8) (r s : List UInt8)

theorem cut_mark : (b0 :: b1 :: b2 :: b3 :: (r ++ x :: y :: (s ++ [z]))).getD (r.length + 4) 0 = x := by
  simp [List.getD_eq_getElem?_getD]

theorem cut_length : (b0 :: b1 :: b2 :: b3 :: (r ++ x :: y :: (s ++ [z]))).getD (5 + r.length) 0 = y := by
  have h : 5 + r.length = r.length + 1 + 1 + 1 + 1 + 1 := by omega
  simp [List.getD_eq_getElem?_getD, h]

theorem cut_r (hi : i < r.length) :
    (b0 :: b1 :: b2 :: b3 :: (r ++ x :: y :: (s ++ [z]))).getD (4 + i) 0 = r.getD i 0 := by
  have h : 4 + i = i + 1 + 1 + 1 + 1 := by omega
  simp [List.getD_eq_getElem?_getD, h, List.getElem?_append_left hi]

theorem cut_s (hi : i < s.length) :
    (b0 :: b1 :: b2 :: b3 :: (r ++ x :: y :: (s ++ [z]))).getD (r.length + 6 + i) 0 = s.getD i 0 := by
  have h : r.length + 6 + i = r.length + (i + 2) + 1 + 1 + 1 + 1 := by omega
  have hle : r.length ≤ r.length + (i + 2) := Nat.le_add_right _ _
  simp [List.getD_eq_getElem?_getD, h, List.getElem?_append_right hle, List.getElem?_append_left hi]

theorem valid_cut_iff (hr : b3.toNat = r.length) (hs : y.toNat = s.length) :
    is_valid_signature_encoding (b0 :: b1 :: b2 :: b3 :: (r ++ x :: y :: (s ++ [z]))) = true ↔
      (9 ≤ r.length + s.length + 7 ∧ r.length + s.length + 7 ≤ 73) ∧ b0 = 0x30 ∧
        b1.toNat = r.length + s.length + 4 ∧ b2 = 0x02 ∧ x = 0x02 ∧ MinimalInteger r ∧ MinimalInteger s := by
  have hmark := cut_mark b0 b1 b2 b3 x y z r s
  have hat := cut_length b0 b1 b2 b3 x y z r s
  set sig := b0 :: b1 :: b2 :: b3 :: (r ++ x :: y :: (s ++ [z]))
  have hlen : sig.length = r.length + s.length + 7 := by
    simp [sig]
    omega
  have h0 : sig.getD 0 0 = b0 := rfl
  have h1 : sig.getD 1 0 = b1 := rfl
  have h2 : sig.getD 2 0 = b2 := rfl
  have h3 : sig.getD 3 0 = b3 := rfl
  have hr0 : 0 < r.length → sig.getD 4 0 = r.getD 0 0 :=
    fun h => cut_r b0 b1 b2 b3 x y z r s h
  have hr1 : 1 < r.length → sig.getD 5 0 = r.getD 1 0 :=
    fun h => cut_r b0 b1 b2 b3 x y z r s h
  have hs0 : 0 < s.length → sig.getD (r.length + 6) 0 = s.getD 0 0 :=
    fun h => cut_s b0 b1 b2 b3 x y z r s h
  have hs1 : 1 < s.length → sig.getD (r.length + 7) 0 = s.getD 1 0 :=
    fun h => cut_s b0 b1 b2 b3 x y z r s h
  unfold is_valid_signature_encoding
  simp only [h0, h1, h2, h3, hr, hmark, hat, hs, hlen, minimalInteger_iff, and_sign]
  rcases Nat.eq_zero_or_pos r.length with hempty | hpos
  · have hnil : r = [] := List.length_eq_zero_iff.mp hempty
    simp [hnil]
  rcases Nat.eq_zero_or_pos s.length with hempty | hspos
  · have hnil : s = [] := List.length_eq_zero_iff.mp hempty
    simp [hnil]
  have hrne : r ≠ [] := List.length_pos_iff.mp hpos
  have hsne : s ≠ [] := List.length_pos_iff.mp hspos
  have hr1 : (1 < r.length ∧ r.getD 0 0 = 0 ∧ sig.getD 5 0 < 0x80) ↔
      1 < r.length ∧ r.getD 0 0 = 0 ∧ r.getD 1 0 < 0x80 := by
    refine and_congr_right fun h => ?_
    rw [hr1 h]
  have hs1 : (1 < s.length ∧ s.getD 0 0 = 0 ∧ sig.getD (r.length + 7) 0 < 0x80) ↔
      1 < s.length ∧ s.getD 0 0 = 0 ∧ s.getD 1 0 < 0x80 := by
    refine and_congr_right fun h => ?_
    rw [hs1 h]
  have hlong : ¬r.length + s.length + 7 ≤ 5 + r.length := by omega
  have htotal : r.length + s.length + 7 - 3 = r.length + s.length + 4 := by omega
  rw [hr0 hpos, hs0 hspos, htotal]
  simp only [reject_iff, ne_eq, and_sign, hr1, hs1, hlong, not_true_eq_false, hrne, hsne, not_false_eq_true,
    true_and, hpos.ne', hspos.ne', false_or, and_true]
  simp only [not_or, not_and, not_not, Nat.not_lt]
  constructor
  · rintro ⟨hlength, ⟨hb0, hb1⟩, ⟨hb2, hsign_r⟩, hlead_r, ⟨hx, hsign_s⟩, hlead_s⟩
    exact ⟨hlength, hb0, hb1, hb2, hx, ⟨hsign_r, hlead_r⟩, hsign_s, hlead_s⟩
  · rintro ⟨hlength, hb0, hb1, hb2, hx, ⟨hsign_r, hlead_r⟩, hsign_s, hlead_s⟩
    exact ⟨hlength, ⟨hb0, hb1⟩, ⟨hb2, hsign_r⟩, hlead_r, ⟨hx, hsign_s⟩, hlead_s⟩

end Cut

theorem StrictDer.lengths {sig r s : List UInt8} (h : StrictDer sig r s hashtype) :
    r.length < 256 ∧ s.length < 256 ∧ r.length + s.length + 4 < 256 := by
  have hlen := h.longest
  rw [h.layout, length_der] at hlen
  omega

theorem is_valid_signature_encoding_iff :
    is_valid_signature_encoding sig = true ↔ ∃ r s hashtype, StrictDer sig r s hashtype := by
  constructor
  · intro h
    have hlen : sig.length = (sig.getD 3 0).toNat + (sig.getD (5 + (sig.getD 3 0).toNat) 0).toNat + 7 := by
      unfold is_valid_signature_encoding at h
      simp only [reject_iff, ne_eq, not_not] at h
      exact h.2.2.2.1.symm
    obtain ⟨b0, b1, b2, b3, r, x, y, s, z, hsig, hr, hs⟩ := exists_cut sig _ _ hlen
    rw [hsig] at hr
    have hb3 : b3.toNat = r.length := hr.symm
    have hy : y.toNat = s.length := by
      rw [hs, hsig]
      simp only [List.getD_cons_succ, List.getD_cons_zero, hb3, cut_length]
    rw [hsig] at h
    obtain ⟨hlength, rfl, hb1, rfl, rfl, hmr, hms⟩ := (valid_cut_iff b0 b1 b2 b3 x y z r s hb3 hy).mp h
    have hb1 : b1 = UInt8.ofNat (r.length + s.length + 4) := by rw [← hb1, UInt8.ofNat_toNat]
    have hb3 : b3 = UInt8.ofNat r.length := by rw [← hb3, UInt8.ofNat_toNat]
    have hy : y = UInt8.ofNat s.length := by rw [← hy, UInt8.ofNat_toNat]
    have hder : sig = der r s z := by rw [hsig, hb1, hb3, hy]; rfl
    have htotal := length_der r s z
    rw [← hder] at htotal
    exact ⟨r, s, z, hder, hmr, hms, by omega, by omega⟩
  · rintro ⟨r, s, z, h⟩
    obtain ⟨hr, hs, hsum⟩ := h.lengths
    have hlength := And.intro h.shortest h.longest
    rw [h.layout, length_der] at hlength
    rw [h.layout]
    refine (valid_cut_iff _ _ _ _ _ _ z r s ?_ ?_).mpr ⟨hlength, rfl, ?_, rfl, rfl, h.minimal_r, h.minimal_s⟩
    · rw [UInt8.toNat_ofNat']; omega
    · rw [UInt8.toNat_ofNat']; omega
    · rw [UInt8.toNat_ofNat']; omega

theorem byte_at {sig : List UInt8} (h : i < sig.length) : sig[i]? = some (sig.getD i 0) := by
  rw [List.getD_eq_getElem?_getD, List.getElem?_eq_getElem h, Option.getD_some]

theorem byte_is_at {sig : List UInt8} (h : i < sig.length) (p : UInt8 → Bool) :
    byte_is sig i p = some (p (sig.getD i 0)) := by
  rw [byte_is, byte_at h, Option.map_some]

theorem or_else_some (a b : Bool) : or_else (some a) (some b) = some (a || b) := by
  cases a <;> rfl

theorem and_then_some (a b : Bool) : and_then (some a) (some b) = some (a && b) := by
  cases a <;> rfl

theorem and_then_guarded [Decidable p] {a : Option Bool} {b : Bool} (h : p → a = some b) :
    and_then (some (decide p)) a = some (decide p && b) := by
  by_cases hp : p
  · rw [h hp, and_then_some]
  · simp [and_then, hp]

theorem check_step [Decidable p] {check : Option Bool} {q : Bool} (hcheck : check = some (decide p))
    (hrest : ¬p → rest = some q) :
    (check.bind fun failed => if failed = true then some false else rest) =
      some (if p then false else q) := by
  rw [hcheck, Option.bind_some]
  by_cases hp : p
  · simp [hp]
  · simp [hp, hrest hp]

theorem guard_step [Decidable p] {q : Bool} (hrest : ¬p → rest = some q) :
    (if p then some false else rest) = some (if p then false else q) := by
  by_cases hp : p
  · simp [hp]
  · simp [hp, hrest hp]

theorem is_valid_signature_encoding_indexed_eq :
    is_valid_signature_encoding_indexed sig = some (is_valid_signature_encoding sig) := by
  unfold is_valid_signature_encoding_indexed is_valid_signature_encoding
  refine guard_step fun hsize => ?_
  refine check_step ?_ fun _ => ?_
  · rw [byte_is_at (by omega : 0 < sig.length), byte_is_at (by omega : 1 < sig.length), or_else_some]
    simp only [Bool.decide_or, bne, decide_not, beq_eq_decide]
  rw [byte_at (by omega : 3 < sig.length)]
  simp only [Option.bind_eq_bind, Option.bind_some, Option.pure_def]
  refine guard_step fun hr => ?_
  rw [byte_at (by omega : 5 + (sig.getD 3 0).toNat < sig.length)]
  simp only [Option.bind_some]
  refine guard_step fun htotal => ?_
  refine check_step ?_ fun hmark_r => ?_
  · rw [byte_is_at (by omega : 2 < sig.length), byte_is_at (by omega : 4 < sig.length), or_else_some, or_else_some]
    simp only [Bool.decide_or, bne, decide_not, beq_eq_decide]
  refine check_step ?_ fun hlead_r => ?_
  · rw [byte_is_at (by omega : 4 < sig.length), byte_is_at (by omega : 5 < sig.length), and_then_some, and_then_some]
    simp only [Bool.decide_and, beq_eq_decide]
  refine check_step ?_ fun hmark_s => ?_
  · rw [byte_is_at (by omega : (sig.getD 3 0).toNat + 4 < sig.length),
      byte_is_at (by omega : (sig.getD 3 0).toNat + 6 < sig.length), or_else_some, or_else_some]
    simp only [Bool.decide_or, bne, decide_not, beq_eq_decide]
  refine check_step ?_ fun hlead_s => rfl
  have hguard : 1 < (sig.getD (5 + (sig.getD 3 0).toNat) 0).toNat →
      and_then (byte_is sig ((sig.getD 3 0).toNat + 6) (· == 0))
          (byte_is sig ((sig.getD 3 0).toNat + 7) (· &&& 0x80 == 0)) =
        some (sig.getD ((sig.getD 3 0).toNat + 6) 0 == 0 && sig.getD ((sig.getD 3 0).toNat + 7) 0 &&& 0x80 == 0) := by
    intro h
    rw [byte_is_at (by omega : (sig.getD 3 0).toNat + 6 < sig.length),
      byte_is_at (by omega : (sig.getD 3 0).toNat + 7 < sig.length), and_then_some]
  rw [and_then_guarded hguard]
  simp only [Bool.decide_and, beq_eq_decide]

theorem check_low_s_der {r s : List UInt8} (hashtype : UInt8) (hr : r.length < 256) (hs : s.length < 256)
    (hsize : 2 ≤ r.length + s.length) :
    check_low_s (der r s hashtype).dropLast =
      if cmp_be256 r SECP256K1_ORDER ≠ .lt ∨ cmp_be256 s SECP256K1_ORDER ≠ .lt then true
      else cmp_be256 s SECP256K1_HALF_ORDER != .gt := by
  have hcat : der r s hashtype = (0x30 :: UInt8.ofNat (r.length + s.length + 4) :: 0x02 ::
      UInt8.ofNat r.length :: (r ++ 0x02 :: UInt8.ofNat s.length :: s)) ++ [hashtype] := by
    simp [der]
  rw [hcat, List.dropLast_concat]
  unfold check_low_s
  have hr : (UInt8.ofNat r.length).toNat = r.length := by rw [UInt8.toNat_ofNat']; omega
  have hs : (UInt8.ofNat s.length).toNat = s.length := by rw [UInt8.toNat_ofNat']; omega
  have hfive : 5 + r.length = r.length + 1 + 1 + 1 + 1 + 1 := by omega
  have hsix : 6 + r.length = r.length + 2 + 1 + 1 + 1 + 1 := by omega
  have hat : (0x30 :: UInt8.ofNat (r.length + s.length + 4) :: 0x02 ::
      UInt8.ofNat r.length :: (r ++ 0x02 :: UInt8.ofNat s.length :: s)).getD (5 + r.length) 0 =
        UInt8.ofNat s.length := by
    simp [List.getD_eq_getElem?_getD, hfive]
  have hlen : (0x30 :: UInt8.ofNat (r.length + s.length + 4) :: 0x02 ::
      UInt8.ofNat r.length :: (r ++ 0x02 :: UInt8.ofNat s.length :: s)).length = r.length + s.length + 6 := by
    simp
    omega
  have hdrop : (r ++ 0x02 :: UInt8.ofNat s.length :: s).drop (r.length + 2) = s := by
    rw [← List.drop_drop, List.drop_left]
    rfl
  have hshort : ¬r.length + s.length + 6 < 8 := by omega
  have hinside : ¬r.length + s.length + 6 ≤ 5 + r.length := by omega
  simp only [List.getD_cons_succ, List.getD_cons_zero, hr] at hat ⊢
  simp only [hlen, hat, hs, hsix, List.drop_succ_cons, List.drop_zero, hdrop, List.take_left, List.take_length,
    hshort, hinside, ne_eq, not_true_eq_false, or_false, if_false]

theorem cmp_be256_lt_iff {bound : ℕ} :
    cmp_be256 bytes bound = .lt ↔ bytes.length ≤ 32 ∧ integer bytes < bound := by
  unfold cmp_be256
  split
  · next h => simp only [reduceCtorEq, false_iff]; omega
  · next h => rw [Nat.compare_eq_lt]; exact ⟨fun hlt => ⟨by omega, hlt⟩, fun hlt => hlt.2⟩

theorem cmp_be256_gt_iff {bound : ℕ} :
    cmp_be256 bytes bound = .gt ↔ 32 < bytes.length ∨ bound < integer bytes := by
  unfold cmp_be256
  split
  · next h => simp [h]
  · next h => rw [Nat.compare_eq_gt]; exact ⟨Or.inr, fun hgt => hgt.resolve_left h⟩

theorem check_low_s_iff {sig r s : List UInt8} (h : StrictDer sig r s hashtype) :
    check_low_s sig.dropLast = true ↔
      32 < r.length ∨ SECP256K1_ORDER ≤ integer r ∨ 32 < s.length ∨ SECP256K1_ORDER ≤ integer s ∨
        integer s ≤ SECP256K1_HALF_ORDER := by
  obtain ⟨hr, hs, -⟩ := h.lengths
  have hsize := h.shortest
  rw [h.layout, length_der] at hsize
  rw [h.layout, check_low_s_der hashtype hr hs (by omega)]
  by_cases hover : cmp_be256 r SECP256K1_ORDER ≠ .lt ∨ cmp_be256 s SECP256K1_ORDER ≠ .lt
  · rw [if_pos hover]
    simp only [ne_eq, cmp_be256_lt_iff] at hover
    simp only [true_iff]
    omega
  · rw [if_neg hover]
    simp only [ne_eq, cmp_be256_lt_iff] at hover
    simp only [bne_iff_ne, ne_eq, cmp_be256_gt_iff]
    omega

/-- What the half order check is there to say of the two integers; an overflow of either one reads as low. -/
def LowS (r s : List UInt8) : Prop :=
  integer s ≤ SECP256K1_HALF_ORDER ∨ SECP256K1_ORDER ≤ integer r ∨ SECP256K1_ORDER ≤ integer s

theorem strict_der_low_s (sig : List UInt8) :
    (is_valid_signature_encoding_indexed sig = some (is_valid_signature_encoding sig) ∧
      (is_valid_signature_encoding sig = true ↔ ∃ r s hashtype, StrictDer sig r s hashtype) ∧
      ∀ r s hashtype, StrictDer sig r s hashtype → (check_low_s sig.dropLast = true ↔ LowS r s)) ↔
    ∀ r s hashtype, StrictDer sig r s hashtype →
      integer r < SECP256K1_ORDER → SECP256K1_HALF_ORDER < integer s → integer s < SECP256K1_ORDER →
        r.length ≤ 32 ∧ s.length ≤ 32 := by
  constructor
  · rintro ⟨-, -, hlow⟩ r s hashtype h hr hs hs'
    have hhigh : ¬LowS r s := by unfold LowS; omega
    have hcheck := mt (hlow r s hashtype h).mp hhigh
    rw [check_low_s_iff h] at hcheck
    omega
  · intro hshort
    refine ⟨is_valid_signature_encoding_indexed_eq sig, is_valid_signature_encoding_iff sig,
      fun r s hashtype h => ?_⟩
    have hfit := hshort r s hashtype h
    rw [check_low_s_iff h]
    unfold LowS
    omega

def padded_s : List UInt8 := 0x00 :: 0x80 :: List.replicate 31 0x00

theorem padded_high_s_passes :
    StrictDer (der [0x01] padded_s 0x01) [0x01] padded_s 0x01 ∧
      ¬(check_low_s (der [0x01] padded_s 0x01).dropLast = true ↔ LowS [0x01] padded_s) := by
  have hr : MinimalInteger [0x01] := (minimalInteger_iff _).mpr (by decide)
  have hs : MinimalInteger padded_s := (minimalInteger_iff _).mpr (by decide)
  have hsig : StrictDer (der [0x01] padded_s 0x01) [0x01] padded_s 0x01 :=
    ⟨rfl, hr, hs, by decide, by decide⟩
  have hhigh : ¬LowS [0x01] padded_s := by
    have hvalue : integer padded_s = 2 ^ 255 := by decide
    have hone : integer [0x01] = 1 := by decide
    rw [LowS, hvalue, hone]
    decide
  have hpasses : check_low_s (der [0x01] padded_s 0x01).dropLast = true := by
    rw [check_low_s_iff hsig]
    right; right; left
    decide
  exact ⟨hsig, fun h => hhigh (h.mp hpasses)⟩

end AvilaNode.Interpreter
