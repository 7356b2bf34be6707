import AvilaNode.Addresses
import AvilaNode.Radix

/-! Base58 with a checksum: decoding accepts exactly what encoding writes. -/

namespace AvilaNode.Address

open Interpreter Utf8 Radix

section Alphabets

variable {d : ℕ}

variable {alphabet : List UInt8}

theorem symbol_of {c : UInt8} (h : alphabet.idxOf? c = some d) :
    d < alphabet.length ∧ alphabet.getD d 0 = c := by
  obtain ⟨hd, hc, -⟩ := List.idxOf?_eq_some_iff.mp h
  refine ⟨hd, ?_⟩
  rw [List.getD_eq_getElem?_getD, List.getElem?_eq_getElem hd, Option.getD_some]
  exact hc

theorem index_of (hnodup : alphabet.Nodup) (hd : d < alphabet.length) :
    alphabet.idxOf? (alphabet.getD d 0) = some d := by
  rw [List.idxOf?_eq_some_iff, List.getD_eq_getElem?_getD, List.getElem?_eq_getElem hd, Option.getD_some]
  refine ⟨hd, rfl, ?_⟩
  intro j hj heq
  exact absurd ((hnodup.getElem_inj_iff).mp heq) hj.ne

/-- Decided byte by byte of the list, where the instance for a bounded quantifier may go over all bytes. -/
theorem forall_of_all {p : UInt8 → Prop} [DecidablePred p] {s : List UInt8}
    (h : (s.all fun c => decide (p c)) = true) : ∀ c ∈ s, p c :=
  fun c hc => of_decide_eq_true (List.all_eq_true.mp h c hc)

theorem base58_nodup : BASE58_ALPHABET.Nodup := by decide

theorem base58_length : BASE58_ALPHABET.length = 58 := by decide

def symbol58 (d : ℕ) : UInt8 := BASE58_ALPHABET.getD d 0

theorem index58 (h : d < 58) : BASE58_ALPHABET.idxOf? (symbol58 d) = some d :=
  index_of base58_nodup (by rw [base58_length]; exact h)

theorem symbol58_of {c : UInt8} (h : BASE58_ALPHABET.idxOf? c = some d) : d < 58 ∧ c = symbol58 d := by
  obtain ⟨hd, hc⟩ := symbol_of h
  rw [base58_length] at hd
  exact ⟨hd, hc.symm⟩

theorem symbol58_zero : symbol58 0 = 0x31 := by decide

theorem symbol58_eq_zero (h : d < 58) : symbol58 d = 0x31 ↔ d = 0 := by
  constructor
  · intro heq
    rw [← symbol58_zero] at heq
    have hi := index58 h
    rw [heq, index58 (by norm_num)] at hi
    exact (Option.some.inj hi).symm
  · rintro rfl
    exact symbol58_zero

end Alphabets

def byte_number (bytes : List UInt8) : ℕ := number 256 (bytes.map UInt8.toNat)

def CanonicalBytes (bytes : List UInt8) : Prop := Canonical 256 (bytes.map UInt8.toNat)

variable {num : List UInt8} (bytes : List UInt8) (data : List UInt8)

theorem byte_small : ∀ d ∈ bytes.map UInt8.toNat, d < 256 := by
  intro d hd
  obtain ⟨byte, -, rfl⟩ := List.mem_map.mp hd
  exact byte.toNat_lt

theorem byte_number_lt : byte_number bytes < 256 ^ bytes.length := by
  have h := number_lt (byte_small bytes)
  rwa [List.length_map] at h

theorem byte_number_cons (byte : UInt8) (bytes : List UInt8) :
    byte_number (byte :: bytes) = byte.toNat * 256 ^ bytes.length + byte_number bytes := by
  rw [byte_number, List.map_cons, number_cons, List.length_map]
  rfl

theorem CanonicalBytes.nil : CanonicalBytes [] := Canonical.nil 256

theorem CanonicalBytes.unique {xs ys : List UInt8} (hx : CanonicalBytes xs) (hy : CanonicalBytes ys)
    (h : byte_number xs = byte_number ys) : xs = ys :=
  List.map_injective_iff.mpr (fun _ _ => UInt8.toNat_inj.mp) (Canonical.unique hx hy h)

theorem ofNat_toNat {n : ℕ} (h : n < 256) : (UInt8.ofNat n).toNat = n := by
  rw [UInt8.toNat_ofNat']
  exact Nat.mod_eq_of_lt h

section Encode

theorem div58_spec {rem : ℕ} (hr : rem < 58) (num : List UInt8) : (div58 rem num).1.length = num.length ∧
    byte_number (div58 rem num).1 * 58 + (div58 rem num).2 = rem * 256 ^ num.length + byte_number num ∧
    (div58 rem num).2 < 58 := by
  induction num generalizing rem with
  | nil => exact ⟨rfl, by simp [div58, byte_number], hr⟩
  | cons byte num ih =>
    have hbyte := byte.toNat_lt
    have hq : (rem * 256 + byte.toNat) / 58 < 256 := by omega
    obtain ⟨hlen, hnum, hlt⟩ := ih (Nat.mod_lt (rem * 256 + byte.toNat) (show 0 < 58 by norm_num))
    refine ⟨by simp [div58, hlen], ?_, hlt⟩
    rw [div58, byte_number_cons, byte_number_cons, ofNat_toNat hq, hlen, List.length_cons, pow_succ]
    have hsplit := Nat.div_add_mod (rem * 256 + byte.toNat) 58
    calc _ = (58 * ((rem * 256 + byte.toNat) / 58)) * 256 ^ num.length +
          (byte_number (div58 ((rem * 256 + byte.toNat) % 58) num).1 * 58 +
            (div58 ((rem * 256 + byte.toNat) % 58) num).2) := by ring
      _ = (58 * ((rem * 256 + byte.toNat) / 58) + (rem * 256 + byte.toNat) % 58) * 256 ^ num.length +
          byte_number num := by rw [hnum]; ring
      _ = _ := by rw [hsplit]; ring

theorem any_ne_zero (num : List UInt8) : num.any (· != 0) = true ↔ byte_number num ≠ 0 := by
  induction num with
  | nil => simp [byte_number]
  | cons byte num ih =>
    have hbyte : (byte != 0) = true ↔ byte.toNat ≠ 0 := by
      rw [bne_iff_ne]
      exact ⟨fun h h0 => h (UInt8.toNat_inj.mp h0), fun h h0 => h (by rw [h0]; rfl)⟩
    have hpos : 0 < 256 ^ num.length := by positivity
    rw [List.any_cons, Bool.or_eq_true, ih, hbyte, byte_number_cons]
    constructor
    · rintro (h | h)
      · exact (Nat.add_pos_left (Nat.mul_pos (Nat.pos_of_ne_zero h) hpos) _).ne'
      · omega
    · intro h
      by_contra hno
      push Not at hno
      rw [hno.1, hno.2] at h
      simp at h

theorem digits58_spec {turns : ℕ} (h : byte_number num < 58 ^ turns) :
    Canonical 58 (digits58 turns num).reverse ∧ number 58 (digits58 turns num).reverse = byte_number num := by
  induction turns generalizing num with
  | zero =>
    rw [pow_zero] at h
    exact ⟨Canonical.nil 58, by simp [digits58]; omega⟩
  | succ turns ih =>
    obtain ⟨-, hdiv, hrem⟩ := div58_spec (show 0 < 58 by norm_num) num
    rw [Nat.zero_mul, Nat.zero_add] at hdiv
    rw [digits58]
    by_cases hany : num.any (· != 0) = true
    · have hnext : byte_number (div58 0 num).1 < 58 ^ turns := by
        rw [pow_succ] at h
        omega
      obtain ⟨hcan, hnumber⟩ := ih hnext
      have hne := (any_ne_zero num).mp hany
      rw [if_pos hany]
      rw [List.reverse_cons, number_concat, hnumber, hdiv]
      refine ⟨hcan.concat hrem ?_, rfl⟩
      by_contra hno
      push Not at hno
      rw [hno.1, number_nil] at hnumber
      omega
    · have hzero : byte_number num = 0 := by
        by_contra hne
        exact hany ((any_ne_zero num).mpr hne)
      rw [if_neg hany, hzero]
      exact ⟨Canonical.nil 58, rfl⟩

theorem byte_number_lt_pow (num : List UInt8) : byte_number num < 58 ^ (2 * num.length) := by
  rw [pow_mul]
  exact lt_of_lt_of_le (byte_number_lt num) (Nat.pow_le_pow_left (by norm_num) _)

theorem exists_canonical :
    ∃ zeros num, data = List.replicate zeros 0 ++ num ∧ CanonicalBytes num := by
  induction data with
  | nil => exact ⟨0, [], rfl, Canonical.nil 256⟩
  | cons byte data ih =>
    by_cases h0 : byte = 0
    · obtain ⟨zeros, num, rfl, hnum⟩ := ih
      exact ⟨zeros + 1, num, by rw [h0]; rfl, hnum⟩
    · refine ⟨0, byte :: data, rfl, ?_⟩
      apply Canonical.cons byte.toNat_lt (fun h => h0 (UInt8.toNat_inj.mp h))
      exact byte_small data

variable (zeros : ℕ)

theorem takeWhile_zeros (h : CanonicalBytes num) :
    ((List.replicate zeros 0 ++ num).takeWhile (· == 0)).length = zeros := by
  induction zeros with
  | zero =>
    cases num with
    | nil => rfl
    | cons byte num =>
      have h0 : byte ≠ 0 := by
        rintro rfl
        exact h.head rfl
      simp [h0]
  | succ zeros ih =>
    rw [List.replicate_succ, List.cons_append, List.takeWhile_cons_of_pos (by rfl), List.length_cons, ih]

theorem byte_number_zeros (num : List UInt8) :
    byte_number (List.replicate zeros 0 ++ num) = byte_number num := by
  rw [byte_number, List.map_append, List.map_replicate]
  exact number_replicate_zero 256 zeros _

theorem base58_encode_raw_eq (hnum : CanonicalBytes num) {ds : List ℕ} (hds : Canonical 58 ds)
    (h : number 58 ds = byte_number num) :
    base58_encode_raw (List.replicate zeros 0 ++ num) = List.replicate zeros 0x31 ++ ds.map symbol58 := by
  obtain ⟨hcan, hnumber⟩ := digits58_spec (byte_number_lt_pow (List.replicate zeros 0 ++ num))
  rw [byte_number_zeros, ← h] at hnumber
  rw [base58_encode_raw, takeWhile_zeros zeros hnum, hcan.unique hds hnumber]
  rfl

theorem exists_digits (num : List UInt8) : ∃ ds, Canonical 58 ds ∧ number 58 ds = byte_number num :=
  ⟨_, digits58_spec (byte_number_lt_pow num)⟩

end Encode

section Decode

theorem mul58_add_spec {carry : ℕ} (hc : carry < 58) (num : List UInt8) :
    (mul58_add carry num).1.length = num.length ∧
    (mul58_add carry num).2 * 256 ^ num.length + byte_number (mul58_add carry num).1 = byte_number num * 58 + carry ∧
    (mul58_add carry num).2 < 58 := by
  induction num with
  | nil => exact ⟨rfl, by simp [mul58_add, byte_number], hc⟩
  | cons byte num ih =>
    obtain ⟨hlen, hnum, hlt⟩ := ih
    have hbyte := byte.toNat_lt
    have hand (n : ℕ) : n &&& 0xff = n % 256 := Nat.and_two_pow_sub_one_eq_mod n 8
    have hshift (n : ℕ) : n >>> 8 = n / 256 := Nat.shiftRight_eq_div_pow n 8
    refine ⟨by simp [mul58_add, hlen], ?_, ?_⟩
    · rw [mul58_add, byte_number_cons, byte_number_cons, hlen, List.length_cons, pow_succ]
      rw [hand, hshift, ofNat_toNat (Nat.mod_lt _ (by norm_num))]
      have hsplit := Nat.div_add_mod (byte.toNat * 58 + (mul58_add carry num).2) 256
      calc _ = (256 * ((byte.toNat * 58 + (mul58_add carry num).2) / 256) +
            (byte.toNat * 58 + (mul58_add carry num).2) % 256) * 256 ^ num.length +
            byte_number (mul58_add carry num).1 := by ring
        _ = byte.toNat * 58 * 256 ^ num.length +
            ((mul58_add carry num).2 * 256 ^ num.length + byte_number (mul58_add carry num).1) := by
          rw [hsplit]
          ring
        _ = _ := by rw [hnum]; ring
    · rw [mul58_add]
      rw [hshift]
      omega

theorem push_carry_eq (room : ℕ) {carry : ℕ} (hc : carry < 58) (num : List UInt8) :
    push_carry room 4 carry num = if carry = 0 then some num
      else if room < num.length + 1 then none else some (UInt8.ofNat carry :: num) := by
  have hand : carry &&& 0xff = carry := (Nat.and_two_pow_sub_one_eq_mod carry 8).trans (Nat.mod_eq_of_lt (by omega))
  have hshift : carry >>> 8 = 0 := (Nat.shiftRight_eq_div_pow carry 8).trans (Nat.div_eq_of_lt (by omega))
  rw [push_carry]
  by_cases h0 : carry = 0
  · rw [if_pos h0, if_neg (by omega)]
  · rw [if_neg h0, if_pos (Nat.pos_of_ne_zero h0), hand, hshift, push_carry, if_neg (lt_irrefl 0)]

theorem push_digit (room : ℕ) {digit : ℕ} (hnum : CanonicalBytes num) (hroom : num.length ≤ room) (hd : digit < 58)
    (hne : num ≠ [] ∨ digit ≠ 0) :
    ∃ next, CanonicalBytes next ∧ byte_number next = byte_number num * 58 + digit ∧ num.length ≤ next.length ∧
      next ≠ [] ∧ push_carry room 4 (mul58_add digit num).2 (mul58_add digit num).1 =
        if next.length ≤ room then some next else none := by
  obtain ⟨hlen, hval, hlt⟩ := mul58_add_spec hd num
  rw [push_carry_eq room hlt]
  by_cases h0 : (mul58_add digit num).2 = 0
  · rw [h0, Nat.zero_mul, Nat.zero_add] at hval
    have hnil : num ≠ [] := by
      rintro rfl
      have hzero : byte_number (mul58_add digit []).1 = 0 := rfl
      have hnone : byte_number [] = 0 := rfl
      rw [hzero, hnone] at hval
      rcases hne with h | h
      · exact h rfl
      · omega
    have hshape : (mul58_add digit num).1 ≠ [] := by
      intro h
      rw [h] at hlen
      exact hnil (List.eq_nil_of_length_eq_zero hlen.symm)
    refine ⟨(mul58_add digit num).1, ?_, hval, hlen.ge, hshape, by rw [if_pos h0, if_pos (by omega)]⟩
    obtain ⟨byte, rest, hcons⟩ := List.exists_cons_of_ne_nil hshape
    obtain ⟨first, tail, rfl⟩ := List.exists_cons_of_ne_nil hnil
    rw [hcons] at hval hlen ⊢
    have hpow : 256 ^ (tail.map UInt8.toNat).length ≤ byte_number (first :: tail) := Canonical.pow_le hnum
    have hsame : rest.length = tail.length := by simpa using hlen
    apply canonical_of_le (byte_small (byte :: rest))
    change 256 ^ (rest.map UInt8.toNat).length ≤ byte_number (byte :: rest)
    rw [List.length_map] at hpow ⊢
    rw [hsame, hval]
    omega
  · refine ⟨UInt8.ofNat (mul58_add digit num).2 :: (mul58_add digit num).1, ?_, ?_, by simp [hlen], by simp, ?_⟩
    · apply Canonical.cons (UInt8.toNat_lt _) _ (byte_small _)
      rwa [ofNat_toNat (by omega)]
    · rw [byte_number_cons, ofNat_toNat (by omega), hlen, hval]
    · rw [if_neg h0, List.length_cons]
      by_cases hfull : room < (mul58_add digit num).1.length + 1
      · rw [if_pos hfull, if_neg (by omega)]
      · rw [if_neg hfull, if_pos (by omega)]

theorem digits_cons_number (b d : ℕ) (num : ℕ) (ds : List ℕ) :
    num * b ^ (d :: ds).length + number b (d :: ds) = (num * b + d) * b ^ ds.length + number b ds := by
  rw [number_cons, List.length_cons, pow_succ']
  ring

variable {max_ret_len zeros : ℕ}

theorem decode58_seen (hnum : CanonicalBytes num) (hne : num ≠ []) (hroom : zeros + num.length ≤ max_ret_len)
    (s data : List UInt8) :
    decode58_loop max_ret_len zeros num true s = some data ↔
      ∃ ds next, s = ds.map symbol58 ∧ (∀ d ∈ ds, d < 58) ∧ CanonicalBytes next ∧
        byte_number next = byte_number num * 58 ^ ds.length + number 58 ds ∧ zeros + next.length ≤ max_ret_len ∧
        data = List.replicate zeros 0 ++ next := by
  induction s generalizing num with
  | nil =>
    rw [decode58_loop, Option.some.injEq]
    constructor
    · rintro rfl
      exact ⟨[], num, rfl, by simp, hnum, by simp, hroom, rfl⟩
    · rintro ⟨ds, next, hs, -, hnext, hval, -, rfl⟩
      have hds : ds = [] := List.map_eq_nil_iff.mp hs.symm
      subst hds
      rw [List.length_nil, pow_zero, Nat.mul_one, number_nil, Nat.add_zero] at hval
      rw [hnext.unique hnum hval]
  | cons c s ih =>
    rw [decode58_loop]
    cases hidx : BASE58_ALPHABET.idxOf? c with
    | none =>
      constructor
      · intro h
        cases h
      · rintro ⟨ds, next, hs, hsmall, -⟩
        cases ds with
        | nil => cases hs
        | cons d ds =>
          obtain ⟨rfl, -⟩ := List.cons.inj hs
          rw [index58 (hsmall d List.mem_cons_self)] at hidx
          cases hidx
    | some digit =>
      obtain ⟨hd, rfl⟩ := symbol58_of hidx
      have hseen : ¬((!true) = true ∧ symbol58 digit = 0x31) := by simp
      dsimp only
      rw [if_neg hseen]
      obtain ⟨step, hstep, hval, hmono, hsne, hpush⟩ := push_digit (max_ret_len - zeros) hnum (by omega) hd
        (Or.inl hne)
      rw [hpush]
      by_cases hfit : step.length ≤ max_ret_len - zeros
      · rw [if_pos hfit]
        rw [ih hstep hsne (by omega)]
        constructor
        · rintro ⟨ds, next, rfl, hsmall, hnext, hnval, hlen, rfl⟩
          refine ⟨digit :: ds, next, rfl, ?_, hnext, ?_, hlen, rfl⟩
          · intro e he
            rcases List.mem_cons.mp he with rfl | he
            · exact hd
            · exact hsmall e he
          · rw [digits_cons_number, hnval, hval]
        · rintro ⟨ds, next, hs, hsmall, hnext, hnval, hlen, rfl⟩
          cases ds with
          | nil => cases hs
          | cons d ds =>
            obtain ⟨hsym, rfl⟩ := List.cons.inj hs
            have hdd : d = digit := by
              have hi := index58 (hsmall d List.mem_cons_self)
              rw [← hsym, hidx] at hi
              exact (Option.some.inj hi).symm
            subst hdd
            rw [digits_cons_number, ← hval] at hnval
            exact ⟨ds, next, rfl, fun e he => hsmall e (List.mem_cons_of_mem _ he), hnext, hnval, hlen, rfl⟩
      · rw [if_neg hfit]
        constructor
        · intro h
          cases h
        · rintro ⟨ds, next, hs, hsmall, hnext, hnval, hlen, -⟩
          exfalso
          cases ds with
          | nil => cases hs
          | cons d ds =>
            obtain ⟨hsym, -⟩ := List.cons.inj hs
            have hdd : d = digit := by
              have hi := index58 (hsmall d List.mem_cons_self)
              rw [← hsym, hidx] at hi
              exact (Option.some.inj hi).symm
            subst hdd
            rw [digits_cons_number, ← hval] at hnval
            have hle : byte_number step ≤ byte_number next := by
              rw [hnval]
              exact le_trans (Nat.le_mul_of_pos_right _ (by positivity)) (Nat.le_add_right _ _)
            have hlen' := Canonical.length_mono hstep hnext hle
            rw [List.length_map, List.length_map] at hlen'
            omega

theorem decode58_zeros (hz : zeros ≤ max_ret_len) (s data : List UInt8) :
    decode58_loop max_ret_len zeros [] false s = some data ↔
      ∃ more ds next, s = List.replicate more 0x31 ++ ds.map symbol58 ∧ Canonical 58 ds ∧ CanonicalBytes next ∧
        byte_number next = number 58 ds ∧ zeros + more + next.length ≤ max_ret_len ∧
        data = List.replicate (zeros + more) 0 ++ next := by
  induction s generalizing zeros with
  | nil =>
    rw [decode58_loop, Option.some.injEq, List.append_nil]
    constructor
    · rintro rfl
      exact ⟨0, [], [], rfl, Canonical.nil 58, Canonical.nil 256, rfl, by simpa using hz, by simp⟩
    · rintro ⟨more, ds, next, hs, -, hnext, hval, -, rfl⟩
      obtain ⟨hmore, hds⟩ := List.append_eq_nil_iff.mp hs.symm
      have hm : more = 0 := by simpa using hmore
      have hd : ds = [] := List.map_eq_nil_iff.mp hds
      subst hm hd
      have hnil : next = [] := hnext.unique (Canonical.nil 256) hval
      rw [hnil, List.append_nil]
      rfl
  | cons c s ih =>
    rw [decode58_loop]
    cases hidx : BASE58_ALPHABET.idxOf? c with
    | none =>
      constructor
      · intro h
        cases h
      · rintro ⟨more, ds, next, hs, hds, -⟩
        exfalso
        have hmem : c ∈ List.replicate more 0x31 ++ ds.map symbol58 := hs ▸ List.mem_cons_self
        rcases List.mem_append.mp hmem with h | h
        · rw [(List.mem_replicate.mp h).2, ← symbol58_zero, index58 (by norm_num)] at hidx
          cases hidx
        · obtain ⟨d, hd, rfl⟩ := List.mem_map.mp h
          rw [index58 (hds.small d hd)] at hidx
          cases hidx
    | some digit =>
      obtain ⟨hd, rfl⟩ := symbol58_of hidx
      dsimp only
      by_cases h0 : digit = 0
      · subst h0
        rw [if_pos ⟨rfl, symbol58_zero⟩]
        by_cases hfull : max_ret_len < zeros + 1
        · rw [if_pos hfull]
          constructor
          · intro h
            cases h
          · rintro ⟨more, ds, next, hs, hds, -, -, hlen, -⟩
            exfalso
            cases more with
            | zero =>
              cases ds with
              | nil => cases hs
              | cons d ds =>
                obtain ⟨hsym, -⟩ := List.cons.inj hs
                rw [symbol58_zero] at hsym
                have hd0 := (symbol58_eq_zero (hds.small d List.mem_cons_self)).mp hsym.symm
                exact hds.head (by rw [hd0]; rfl)
            | succ more => omega
        · rw [if_neg hfull, ih (by omega)]
          constructor
          · rintro ⟨more, ds, next, rfl, hds, hnext, hval, hlen, rfl⟩
            have hcomm : zeros + 1 + more = zeros + (more + 1) := by omega
            rw [hcomm] at hlen ⊢
            exact ⟨more + 1, ds, next, by rw [List.replicate_succ, symbol58_zero]; rfl, hds, hnext, hval, hlen, rfl⟩
          · rintro ⟨more, ds, next, hs, hds, hnext, hval, hlen, rfl⟩
            cases more with
            | zero =>
              exfalso
              cases ds with
              | nil => cases hs
              | cons d ds =>
                obtain ⟨hsym, -⟩ := List.cons.inj hs
                rw [symbol58_zero] at hsym
                have hd0 := (symbol58_eq_zero (hds.small d List.mem_cons_self)).mp hsym.symm
                exact hds.head (by rw [hd0]; rfl)
            | succ more =>
              rw [List.replicate_succ, List.cons_append] at hs
              obtain ⟨-, rfl⟩ := List.cons.inj hs
              have hcomm : zeros + (more + 1) = zeros + 1 + more := by omega
              rw [hcomm] at hlen ⊢
              exact ⟨more, ds, next, rfl, hds, hnext, hval, hlen, rfl⟩
      · have hno : ¬((!false) = true ∧ symbol58 digit = 0x31) := fun h => h0 ((symbol58_eq_zero hd).mp h.2)
        rw [if_neg hno]
        obtain ⟨step, hstep, hval, -, hsne, hpush⟩ := push_digit (max_ret_len - zeros) CanonicalBytes.nil
          (Nat.zero_le _) hd (Or.inr h0)
        have hstepval : byte_number step = digit := by rw [hval]; simp [byte_number]
        rw [hpush]
        have hhead {more : ℕ} {ds : List ℕ} (hs : symbol58 digit :: s = List.replicate more 0x31 ++ ds.map symbol58)
            (hds : Canonical 58 ds) : more = 0 ∧ ∃ rest, ds = digit :: rest ∧ s = rest.map symbol58 := by
          cases more with
          | succ more =>
            rw [List.replicate_succ, List.cons_append] at hs
            exact absurd ((symbol58_eq_zero hd).mp (List.cons.inj hs).1) h0
          | zero =>
            cases ds with
            | nil => cases hs
            | cons d ds =>
              obtain ⟨hsym, rfl⟩ := List.cons.inj hs
              have hi := index58 (hds.small d List.mem_cons_self)
              rw [← hsym, hidx] at hi
              exact ⟨rfl, ds, by rw [Option.some.inj hi], rfl⟩
        by_cases hfit : step.length ≤ max_ret_len - zeros
        · rw [if_pos hfit]
          rw [decode58_seen hstep hsne (by omega)]
          constructor
          · rintro ⟨ds, next, rfl, hsmall, hnext, hnval, hlen, rfl⟩
            refine ⟨0, digit :: ds, next, rfl, Canonical.cons hd h0 hsmall, hnext, ?_, hlen, rfl⟩
            rw [hnval, hstepval, number_cons]
          · rintro ⟨more, ds, next, hs, hds, hnext, hnval, hlen, rfl⟩
            obtain ⟨rfl, rest, rfl, rfl⟩ := hhead hs hds
            refine ⟨rest, next, rfl, fun e he => hds.small e (List.mem_cons_of_mem _ he), hnext, ?_, hlen, rfl⟩
            rw [hnval, hstepval, number_cons]
        · rw [if_neg hfit]
          constructor
          · intro h
            cases h
          · rintro ⟨more, ds, next, hs, hds, hnext, hnval, hlen, -⟩
            exfalso
            obtain ⟨rfl, rest, rfl, rfl⟩ := hhead hs hds
            have hle : byte_number step ≤ byte_number next := by
              rw [hnval, hstepval, number_cons]
              exact le_trans (Nat.le_mul_of_pos_right _ (by positivity)) (Nat.le_add_right _ _)
            have hlen' := Canonical.length_mono hstep hnext hle
            rw [List.length_map, List.length_map] at hlen'
            omega

theorem base58_decode_bytes_iff (s : List UInt8) (max_ret_len : ℕ) (data : List UInt8) :
    base58_decode_bytes s max_ret_len = some data ↔ s = base58_encode_raw data ∧ data.length ≤ max_ret_len := by
  rw [base58_decode_bytes, decode58_zeros (Nat.zero_le _)]
  constructor
  · rintro ⟨more, ds, next, rfl, hds, hnext, hval, hlen, rfl⟩
    rw [Nat.zero_add] at hlen ⊢
    exact ⟨(base58_encode_raw_eq more hnext hds hval.symm).symm, by simpa using hlen⟩
  · rintro ⟨rfl, hlen⟩
    obtain ⟨zeros, num, rfl, hnum⟩ := exists_canonical data
    obtain ⟨ds, hds, hval⟩ := exists_digits num
    rw [List.length_append, List.length_replicate] at hlen
    refine ⟨zeros, ds, num, base58_encode_raw_eq zeros hnum hds hval, hds, hnum, hval.symm, by omega, ?_⟩
    rw [Nat.zero_add]

end Decode

section

variable [Platform]

theorem checksum_length : (checksum data).length = 4 := by
  simp [checksum, Hash256.to_bytes]

theorem base58check_decode_iff (s : List UInt8) (max_ret_len : ℕ) (version : UInt8) (payload : List UInt8) :
    base58check_decode s max_ret_len = some (version, payload) ↔
      s = base58check version payload ∧ payload.length + 1 ≤ max_ret_len := by
  rw [base58check_decode]
  cases hdecode : base58_decode_bytes s (max_ret_len + 4) with
  | none =>
    constructor
    · intro h
      cases h
    · rintro ⟨rfl, hlen⟩
      have hsome := (base58_decode_bytes_iff (base58check version payload) (max_ret_len + 4)
        (version :: payload ++ checksum (version :: payload))).mpr ⟨rfl, by simp [checksum_length]; omega⟩
      rw [hsome] at hdecode
      cases hdecode
  | some data =>
    obtain ⟨rfl, hlen⟩ := (base58_decode_bytes_iff s _ data).mp hdecode
    constructor
    · intro h
      dsimp only at h
      split_ifs at h with hshort hsum
      cases hbody : data.take (data.length - 4) with
      | nil =>
        rw [hbody] at h
        cases h
      | cons v p =>
        rw [hbody] at h
        cases h
        have hdata := List.take_append_drop (data.length - 4) data
        rw [hbody, ← not_not.mp hsum, hbody] at hdata
        have hcount := congrArg List.length hbody
        rw [List.length_take, List.length_cons] at hcount
        refine ⟨?_, by omega⟩
        rw [base58check, ← hdata]
    · rintro ⟨hs, hle⟩
      have hsome := (base58_decode_bytes_iff (base58check version payload) (max_ret_len + 4)
        (version :: payload ++ checksum (version :: payload))).mpr ⟨rfl, by simp [checksum_length]; omega⟩
      rw [← hs, hdecode] at hsome
      obtain rfl := Option.some.inj hsome
      have hlong : (version :: payload ++ checksum (version :: payload)).length - 4 =
        (version :: payload).length := by
        rw [List.length_append, checksum_length]
        omega
      dsimp only
      rw [hlong, List.take_left, List.drop_left, if_neg (by simp [checksum_length]), if_neg (not_not.mpr rfl)]

end

end AvilaNode.Address
