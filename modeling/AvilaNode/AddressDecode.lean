import AvilaNode.Bech32
import Mathlib.Data.List.Chain

/-! Both decoders of witness addresses accept exactly what the encoder writes, in either case. -/

namespace AvilaNode.Address

open Interpreter Utf8 Radix

variable {s : List UInt8} {front back : List UInt8} {rest : List ℕ}

section Boundaries

def Bounded (s : List UInt8) : Prop := s.IsChain fun a b => a < 0x80 → continuation b = false

theorem continuation_small {byte : UInt8} (h : byte < 0x80) : continuation byte = false := by
  rw [continuation, decide_eq_false_iff_not]
  intro hc
  exact absurd h (UInt8.not_lt.mpr hc.1)

theorem continuation_large {n : ℕ} (h : 0xc0 ≤ n) (hlt : n < 256) : continuation (UInt8.ofNat n) = false := by
  rw [continuation, decide_eq_false_iff_not]
  intro hc
  have hle := UInt8.le_iff_toNat_le.mp hc.2
  rw [ofNat_toNat hlt] at hle
  exact absurd hle (by rw [show (0xbf : UInt8).toNat = 0xbf from rfl]; omega)

theorem not_small {n : ℕ} (h : 0x80 ≤ n) (hlt : n < 256) : ¬UInt8.ofNat n < 0x80 := by
  intro hc
  have hc' := UInt8.lt_iff_toNat_lt.mp hc
  rw [ofNat_toNat hlt] at hc'
  exact absurd hc' (by rw [show (0x80 : UInt8).toNat = 0x80 from rfl]; omega)

theorem utf8_char (c : Char) : ∃ first rest, String.utf8EncodeChar c = first :: rest ∧ continuation first = false ∧
    (rest = [] ∨ ∀ b ∈ first :: rest, ¬b < 0x80) := by
  rw [String.utf8EncodeChar]
  generalize c.val.toNat = v
  have hfirst (n m k : ℕ) (hk : k = 0x20 ∨ k = 0x10 ∨ k = 8) (hm : 0xc0 ≤ m) (hmk : m + k ≤ 256) :
      continuation (UInt8.ofNat (n % k + m)) = false ∧ ¬UInt8.ofNat (n % k + m) < 0x80 := by
    have hlt : n % k < k := Nat.mod_lt _ (by omega)
    exact ⟨continuation_large (by omega) (by omega), not_small (by omega) (by omega)⟩
  have hrest (n : ℕ) : ¬UInt8.ofNat (n % 0x40 + 0x80) < 0x80 := not_small (by omega) (by omega)
  split_ifs with h1 h2 h3
  · refine ⟨_, [], rfl, continuation_small ?_, Or.inl rfl⟩
    rw [UInt8.lt_iff_toNat_lt, ofNat_toNat (by omega)]
    exact Nat.lt_succ_of_le h1
  · obtain ⟨hc, hn⟩ := hfirst (v / 64) 0xc0 0x20 (Or.inl rfl) (by norm_num) (by norm_num)
    refine ⟨_, _, rfl, hc, Or.inr ?_⟩
    simp only [List.forall_mem_cons, List.not_mem_nil, false_imp_iff, forall_const, and_true]
    exact ⟨hn, hrest v⟩
  · obtain ⟨hc, hn⟩ := hfirst (v / 4096) 0xe0 0x10 (Or.inr (Or.inl rfl)) (by norm_num) (by norm_num)
    refine ⟨_, _, rfl, hc, Or.inr ?_⟩
    simp only [List.forall_mem_cons, List.not_mem_nil, false_imp_iff, forall_const, and_true]
    exact ⟨hn, hrest _, hrest v⟩
  · obtain ⟨hc, hn⟩ := hfirst (v / 262144) 0xf0 8 (Or.inr (Or.inr rfl)) (by norm_num) (by norm_num)
    refine ⟨_, _, rfl, hc, Or.inr ?_⟩
    simp only [List.forall_mem_cons, List.not_mem_nil, false_imp_iff, forall_const, and_true]
    exact ⟨hn, hrest _, hrest _, hrest v⟩

theorem bounded_chars (chars : List Char) : Bounded (chars.flatMap String.utf8EncodeChar) ∧
    ∀ b ∈ (chars.flatMap String.utf8EncodeChar).head?, continuation b = false := by
  induction chars with
  | nil => exact ⟨List.isChain_nil, by simp⟩
  | cons c chars ih =>
    obtain ⟨first, rest, hc, hfirst, hbytes⟩ := utf8_char c
    rw [List.flatMap_cons, hc]
    refine ⟨?_, by simpa using hfirst⟩
    rw [Bounded, List.isChain_append]
    refine ⟨?_, ih.1, fun x _ y hy _ => ih.2 y hy⟩
    rcases hbytes with rfl | hbytes
    · exact List.isChain_singleton _
    have hnone (bytes : List UInt8) (h : ∀ b ∈ bytes, ¬b < 0x80) : Bounded bytes := by
      induction bytes with
      | nil => exact List.isChain_nil
      | cons b bytes ih =>
        have hb := h b List.mem_cons_self
        rw [Bounded, List.isChain_cons]
        exact ⟨fun y _ hlt => absurd hlt hb, ih fun b hb => h b (List.mem_cons_of_mem _ hb)⟩
    exact hnone _ hbytes

theorem bounded_as_bytes (s : String) : Bounded (as_bytes s) := by
  have h := (bounded_chars s.toList).1
  have hs : s.toByteArray = s.toList.utf8Encode := String.utf8Encode_toList.symm
  rw [as_bytes, hs, List.utf8Encode]
  simpa using h

theorem bounded_ascii (h : ∀ c ∈ s, c < 0x80) : Bounded s := by
  induction s with
  | nil => exact List.isChain_nil
  | cons a s ih =>
    rw [Bounded, List.isChain_cons]
    refine ⟨?_, ih fun c hc => h c (List.mem_cons_of_mem _ hc)⟩
    intro b hb _
    exact continuation_small (h b (List.mem_cons_of_mem _ (List.mem_of_mem_head? hb)))

theorem lower_toNat (c : UInt8) :
    (lower_byte c).toNat = if 0x41 ≤ c.toNat ∧ c.toNat ≤ 0x5a then c.toNat + 0x20 else c.toNat := by
  have hiff : 0x41 ≤ c ∧ c ≤ 0x5a ↔ 0x41 ≤ c.toNat ∧ c.toNat ≤ 0x5a := by
    rw [UInt8.le_iff_toNat_le, UInt8.le_iff_toNat_le]
    rfl
  rw [lower_byte]
  by_cases h : 0x41 ≤ c ∧ c ≤ 0x5a
  · rw [if_pos h, if_pos (hiff.mp h), UInt8.toNat_add, show (0x20 : UInt8).toNat = 0x20 from rfl]
    exact Nat.mod_eq_of_lt (by have := (hiff.mp h).2; omega)
  · rw [if_neg h, if_neg (mt hiff.mpr h)]

theorem bounded_lower (h : Bounded s) : Bounded (to_ascii_lowercase s) := by
  have hsmall (c : UInt8) : lower_byte c < 0x80 ↔ c < 0x80 := by
    rw [UInt8.lt_iff_toNat_lt, UInt8.lt_iff_toNat_lt, lower_toNat, show (0x80 : UInt8).toNat = 0x80 from rfl]
    split_ifs <;> omega
  have hcont (c : UInt8) : continuation (lower_byte c) = continuation c := by
    simp only [continuation, UInt8.le_iff_toNat_le, lower_toNat, show (0x80 : UInt8).toNat = 0x80 from rfl,
      show (0xbf : UInt8).toNat = 0xbf from rfl, decide_eq_decide]
    split_ifs <;> omega
  rw [Bounded, to_ascii_lowercase, List.isChain_map]
  apply h.imp
  intro a b hab ha
  rw [hcont]
  exact hab ((hsmall a).mp ha)

theorem str_slice_around (h : Bounded (front ++ 0x31 :: back)) :
    str_slice (front ++ 0x31 :: back) 0 front.length = .ok front ∧
      str_slice (front ++ 0x31 :: back) (front.length + 1) (front ++ 0x31 :: back).length = .ok back := by
  have hstart : is_char_boundary (front ++ 0x31 :: back) 0 = true := by
    cases front <;> rfl
  have hsep : is_char_boundary (front ++ 0x31 :: back) front.length = true := by
    rw [is_char_boundary, List.getElem?_append_right le_rfl, Nat.sub_self]
    simp only [List.getElem?_cons_zero, continuation_small (show (0x31 : UInt8) < 0x80 by decide), Bool.not_false,
      Bool.or_true]
  have hnext : is_char_boundary (front ++ 0x31 :: back) (front.length + 1) = true := by
    rw [is_char_boundary, List.getElem?_append_right (by omega), Nat.add_sub_cancel_left]
    cases back with
    | nil => simp
    | cons b back =>
      have hb := ((List.isChain_append.mp h).2.1 : ((0x31 : UInt8) :: b :: back).IsChain _)
      rw [List.isChain_cons_cons] at hb
      simp [hb.1 (by decide)]
  have hstop : is_char_boundary (front ++ 0x31 :: back) (front ++ 0x31 :: back).length = true := by
    rw [is_char_boundary, List.getElem?_eq_none le_rfl]
    exact beq_self_eq_true _
  constructor
  · rw [str_slice, if_pos ⟨Nat.zero_le _, by simp, hstart, hsep⟩, List.take_left, List.drop_zero]
  · rw [str_slice, if_pos ⟨by simp, le_rfl, hnext, hstop⟩, List.take_length]
    have hassoc : front ++ 0x31 :: back = front ++ [0x31] ++ back := by simp
    rw [hassoc, List.drop_left' (by simp)]

end Boundaries

section Symbols

theorem bech32_nodup : BECH32_CHARSET.Nodup := by decide

theorem bech32_length : BECH32_CHARSET.length = 32 := by decide

theorem bech32_symbols : ∀ c ∈ BECH32_CHARSET, 32 < c ∧ c < 127 ∧ c ≠ 0x31 ∧ lower_byte c = c :=
  forall_of_all (by decide)

def symbol32 (v : ℕ) : UInt8 := BECH32_CHARSET.getD v 0

variable {v : ℕ} {c : UInt8}

theorem index32 (h : v < 32) : BECH32_CHARSET.idxOf? (symbol32 v) = some v :=
  index_of bech32_nodup (by rw [bech32_length]; exact h)

theorem symbol32_of (h : BECH32_CHARSET.idxOf? c = some v) : v < 32 ∧ c = symbol32 v := by
  obtain ⟨hv, hc⟩ := symbol_of h
  rw [bech32_length] at hv
  exact ⟨hv, hc.symm⟩

theorem symbol32_mem (h : v < 32) : symbol32 v ∈ BECH32_CHARSET := by
  rw [symbol32, List.getD_eq_getElem?_getD, List.getElem?_eq_getElem (by rw [bech32_length]; exact h),
    Option.getD_some]
  exact List.getElem_mem _

theorem symbol32_ne (h : v < 32) : symbol32 v ≠ 0x31 := (bech32_symbols _ (symbol32_mem h)).2.2.1

theorem bech32_values_iff (s : List UInt8) (values : List ℕ) :
    bech32_values s = some values ↔ s = values.map symbol32 ∧ ∀ v ∈ values, v < 32 := by
  induction s generalizing values with
  | nil =>
    rw [bech32_values, Option.some.injEq]
    constructor
    · rintro rfl
      exact ⟨rfl, by simp⟩
    · rintro ⟨h, -⟩
      exact (List.map_eq_nil_iff.mp h.symm).symm
  | cons c s ih =>
    rw [bech32_values]
    constructor
    · intro h
      cases hidx : BECH32_CHARSET.idxOf? c with
      | none => simp [hidx] at h
      | some v =>
        rw [hidx] at h
        obtain ⟨rest, hrest, rfl⟩ := Option.map_eq_some_iff.mp h
        obtain ⟨rfl, hsmall⟩ := (ih rest).mp hrest
        obtain ⟨hv, rfl⟩ := symbol32_of hidx
        exact ⟨rfl, List.forall_mem_cons.mpr ⟨hv, hsmall⟩⟩
    · rintro ⟨h, hsmall⟩
      cases values with
      | nil => cases h
      | cons v values =>
        obtain ⟨rfl, rfl⟩ := List.cons.inj h
        obtain ⟨hv, hrest⟩ := List.forall_mem_cons.mp hsmall
        rw [index32 hv]
        exact Option.map_eq_some_iff.mpr ⟨values, (ih values).mpr ⟨rfl, hrest⟩, rfl⟩

theorem located_values_eq (i : ℕ) (s : List UInt8) : (located_values i s).toOption = bech32_values s := by
  induction s generalizing i with
  | nil => rfl
  | cons c s ih =>
    rw [located_values, bech32_values]
    cases BECH32_CHARSET.idxOf? c with
    | none => rfl
    | some v =>
      rw [← ih (i + 1)]
      cases located_values (i + 1) s <;> rfl

theorem rfind_around (h : c ∉ back) :
    rfind (front ++ c :: back) c = some front.length := by
  have hidx : (front ++ c :: back).reverse.idxOf? c = some back.length := by
    rw [List.idxOf?_eq_some_iff]
    have hrev : (front ++ c :: back).reverse = back.reverse ++ c :: front.reverse := by simp
    simp only [hrev]
    refine ⟨by simp, by simp, ?_⟩
    intro j hj
    rw [List.getElem_append_left (by simpa using hj)]
    intro hc
    exact h (List.mem_reverse.mp (hc ▸ List.getElem_mem _))
  rw [rfind, hidx, Option.map_some, List.length_append, List.length_cons]
  congr 1
  omega

theorem exists_around (h : c ∈ s) : ∃ front back, s = front ++ c :: back ∧ c ∉ back := by
  obtain ⟨back, front, hs, hback⟩ := List.eq_append_cons_of_mem (List.mem_reverse.mpr h)
  refine ⟨front.reverse, back.reverse, ?_, fun hmem => hback (List.mem_reverse.mp hmem)⟩
  have hrev := congrArg List.reverse hs
  simpa using hrev

theorem around_unique {front front' back back' : List UInt8} (h : c ∉ back) (h' : c ∉ back')
    (heq : front ++ c :: back = front' ++ c :: back') : front = front' ∧ back = back' := by
  have hlen := @rfind_around front back c h
  rw [heq, rfind_around h', Option.some.injEq] at hlen
  obtain ⟨hfront, hrest⟩ := List.append_inj heq hlen.symm
  exact ⟨hfront, (List.cons.inj hrest).2⟩

end Symbols

structure ValidProgram (version : ℕ) (program : List UInt8) : Prop where
  version_le : version ≤ 16
  length_ge : 2 ≤ program.length
  length_le : program.length ≤ 40
  sizes : version = 0 → program.length = 20 ∨ program.length = 32

structure WitnessAddress (s hrp : List UInt8) (version : ℕ) (program : List UInt8) : Prop where
  uniform : to_ascii_lowercase s = s ∨ to_ascii_uppercase s = s
  address : to_ascii_lowercase s = witness_address hrp version program
  hrp_ne : hrp ≠ []
  valid : ValidProgram version program
  length_le : s.length ≤ 90

def address_values (hrp : List UInt8) (version : ℕ) (program : List UInt8) : List ℕ :=
  version :: regroup program ++
    check_groups (polymod hrp (version :: regroup program ++ List.replicate 6 0) ^^^ checksum_const version)

theorem witness_address_eq (hrp : List UInt8) (version : ℕ) (program : List UInt8) :
    witness_address hrp version program = hrp ++ 0x31 :: (address_values hrp version program).map symbol32 := by
  rw [witness_address, address_values, List.map_append, check_groups, List.map_map]
  rfl

section Values

theorem regroup_length (program : List UInt8) : 5 * (regroup program).length < 8 * program.length + 5 ∧
    8 * program.length ≤ 5 * (regroup program).length := by
  obtain ⟨pad, hpad, hlen, -⟩ := regroup_spec program
  omega

variable {version : ℕ}

theorem address_values_small (hrp : List UInt8) (hv : version < 32) (program : List UInt8) :
    ∀ v ∈ address_values hrp version program, v < 32 := by
  obtain ⟨-, -, -, -, hsmall⟩ := regroup_spec program
  intro v hmem
  rcases List.mem_append.mp hmem with h | h
  · rcases List.mem_cons.mp h with rfl | h
    · exact hv
    · exact hsmall v h
  · exact check_groups_small _ v h

theorem address_values_length (hrp : List UInt8) (version : ℕ) (program : List UInt8) :
    (address_values hrp version program).length = (regroup program).length + 7 := by
  rw [address_values, List.length_append, List.length_cons]
  rfl

theorem values_iff (hrp : List UInt8) (hlen : 6 ≤ rest.length) (hsmall : ∀ v ∈ version :: rest, v < 32)
    (program : List UInt8) :
    polymod hrp (version :: rest) = checksum_const version ∧
      regroup_bytes (rest.take (rest.length - 6)) = some program ↔
      version :: rest = address_values hrp version program := by
  have hdata : ∀ v ∈ rest.take (rest.length - 6), v < 32 := fun v hv =>
    hsmall v (List.mem_cons_of_mem _ (List.mem_of_mem_take hv))
  have hcheck : ∀ v ∈ rest.drop (rest.length - 6), v < 32 := fun v hv =>
    hsmall v (List.mem_cons_of_mem _ (List.mem_of_mem_drop hv))
  have hsplit : version :: rest = version :: rest.take (rest.length - 6) ++ rest.drop (rest.length - 6) := by
    rw [List.cons_append, List.take_append_drop]
  have hsix : (rest.drop (rest.length - 6)).length = 6 := by
    rw [List.length_drop]
    omega
  rw [regroup_bytes_iff hdata]
  conv_lhs => rw [hsplit, polymod_eq_iff hrp _ hsix hcheck]
  constructor
  · rintro ⟨hc, hd⟩
    rw [hsplit, hc, hd]
    rfl
  · intro h
    rw [address_values, hsplit] at h
    obtain ⟨hfront, hback⟩ := List.append_inj' h (by rw [hsix]; rfl)
    obtain ⟨-, hd⟩ := List.cons.inj hfront
    exact ⟨by rw [hd]; exact hback, hd⟩

theorem lower_cons {s hrp : List UInt8} {program : List UInt8}
    (h : to_ascii_lowercase s = witness_address hrp version program) (hv : version < 32)
    (hs : to_ascii_lowercase s = front ++ 0x31 :: back) (hback : 0x31 ∉ back) :
    front = hrp ∧ back = (address_values hrp version program).map symbol32 := by
  rw [hs, witness_address_eq] at h
  apply around_unique hback _ h
  intro hmem
  obtain ⟨v, hval, hone⟩ := List.mem_map.mp hmem
  exact symbol32_ne (address_values_small hrp hv program v hval) hone

end Values

section WitnessDecode

theorem ok_bind {α β : Type} (a : α) (f : α → Except Panic β) : (Except.ok a >>= f) = f a := rfl

theorem pure_ok {α : Type} (a : α) : (pure a : Except Panic α) = .ok a := rfl

theorem lower_length (s : List UInt8) : (to_ascii_lowercase s).length = s.length := by
  rw [to_ascii_lowercase, List.length_map]

def decode_values (hrp : List UInt8) (version : ℕ) (rest : List ℕ) : Option (List UInt8 × ℕ × List UInt8) :=
  if 16 < version then none
  else if polymod hrp (version :: rest) ≠ checksum_const version then none
  else (regroup_bytes (rest.take (rest.length - 6))).bind fun program =>
    if program.length < 2 ∨ 40 < program.length then none
    else if version = 0 ∧ program.length ≠ 20 ∧ program.length ≠ 32 then none
    else some (hrp, version, program)

theorem decode_values_iff (hrp : List UInt8) {version : ℕ} (hlen : 6 ≤ rest.length)
    (hsmall : ∀ v ∈ version :: rest, v < 32) (out : List UInt8 × ℕ × List UInt8) :
    decode_values hrp version rest = some out ↔
      out.1 = hrp ∧ out.2.1 = version ∧ ValidProgram version out.2.2 ∧
        version :: rest = address_values hrp version out.2.2 := by
  rw [decode_values]
  constructor
  · intro h
    split_ifs at h with h16 hsum
    obtain ⟨program, hprogram, h⟩ := Option.bind_eq_some_iff.mp h
    split_ifs at h with hsize hzero
    obtain rfl := Option.some.inj h
    refine ⟨rfl, rfl, ⟨by omega, by dsimp only; omega, by dsimp only; omega, by dsimp only; omega⟩, ?_⟩
    exact (values_iff hrp hlen hsmall program).mp ⟨not_not.mp hsum, hprogram⟩
  · rintro ⟨rfl, rfl, hvalid, hvalues⟩
    obtain ⟨hsum, hprogram⟩ := (values_iff out.1 hlen hsmall out.2.2).mpr hvalues
    obtain ⟨hv, hge, hle, hsizes⟩ := hvalid
    rw [if_neg (by omega), if_neg (not_not.mpr hsum), hprogram, Option.bind_some, if_neg (by omega),
      if_neg (by omega)]

theorem witness_decode_none (h : 0x31 ∉ to_ascii_lowercase s) : witness_decode s = .ok none := by
  have hnone : rfind (to_ascii_lowercase s) 0x31 = none := by
    rw [rfind, Option.map_eq_none_iff, List.idxOf?_eq_none_iff]
    exact fun hmem => h (List.mem_reverse.mp hmem)
  rw [witness_decode, hnone]
  split_ifs <;> rfl

theorem witness_decode_eq (hs : Bounded s) (hsep : to_ascii_lowercase s = front ++ 0x31 :: back) (hback : 0x31 ∉ back) :
    witness_decode s = .ok (if to_ascii_lowercase s ≠ s ∧ to_ascii_uppercase s ≠ s then none
      else if front = [] ∨ back.length < 7 ∨ 90 < s.length then none
      else (bech32_values back).bind fun values => decode_values front (values.getD 0 0) values.tail) := by
  have hbound := bounded_lower hs
  rw [hsep] at hbound
  obtain ⟨hhrp, htail⟩ := str_slice_around hbound
  rw [witness_decode]
  by_cases hcase : to_ascii_lowercase s ≠ s ∧ to_ascii_uppercase s ≠ s
  · rw [if_pos hcase, if_pos hcase]
    rfl
  rw [if_neg hcase, if_neg hcase, ← lower_length s, hsep, rfind_around hback]
  have hlen : (front ++ 0x31 :: back).length = front.length + 1 + back.length := by
    rw [List.length_append, List.length_cons]
    omega
  have hafter : sub (front ++ 0x31 :: back).length front.length = .ok (back.length + 1) := by
    rw [sub, if_pos (by omega), hlen]
    congr 1
    omega
  have htail' : sub (back.length + 1) 1 = .ok back.length := by
    rw [sub, if_pos (by omega), Nat.add_sub_cancel]
  have hnil : front.length = 0 ↔ front = [] := List.length_eq_zero_iff
  simp only [hafter, htail', hhrp, htail, hnil, ok_bind, pure_ok]
  by_cases hshape : front = [] ∨ back.length < 7 ∨ 90 < (front ++ 0x31 :: back).length
  · rw [if_pos hshape, if_pos hshape]
  rw [if_neg hshape, if_neg hshape]
  push Not at hshape
  cases hvalues : bech32_values back with
  | none => rfl
  | some values =>
    obtain ⟨hback', -⟩ := (bech32_values_iff back values).mp hvalues
    have hcount : values.length = back.length := by rw [hback', List.length_map]
    cases values with
    | nil =>
      rw [List.length_nil] at hcount
      omega
    | cons version rest =>
      rw [List.length_cons] at hcount
      have hsix : sub (version :: rest).length 6 = .ok (rest.length - 6 + 1) := by
        rw [sub, List.length_cons, if_pos (by omega)]
        congr 1
        omega
      have hdata : slice (version :: rest) 1 (rest.length - 6 + 1) = .ok (rest.take (rest.length - 6)) := by
        rw [slice, List.length_cons, if_pos (by omega)]
        rfl
      simp only [hsix, hdata, ok_bind, Option.bind_some, decode_values, List.getD_cons_zero, List.tail_cons]
      split_ifs
      · rfl
      · rfl
      · cases regroup_bytes (rest.take (rest.length - 6)) with
        | none => rfl
        | some program =>
          rw [Option.bind_some]
          dsimp only
          split_ifs <;> rfl

theorem witness_decode_iff (hs : Bounded s) : ∃ out, witness_decode s = .ok out ∧
    ∀ hrp version program, out = some (hrp, version, program) ↔ WitnessAddress s hrp version program := by
  by_cases hmem : 0x31 ∈ to_ascii_lowercase s
  · obtain ⟨front, back, hsep, hback⟩ := exists_around hmem
    refine ⟨_, witness_decode_eq hs hsep hback, ?_⟩
    intro hrp version program
    constructor
    · intro h
      split_ifs at h with hcase hshape
      push Not at hshape
      obtain ⟨values, hvalues, hdecode⟩ := Option.bind_eq_some_iff.mp h
      obtain ⟨rfl, hsmall⟩ := (bech32_values_iff back values).mp hvalues
      rw [List.length_map] at hshape
      cases values with
      | nil => exact absurd hshape.2.1 (by simp)
      | cons v rest =>
        rw [List.length_cons] at hshape
        obtain ⟨hhrp, hv, hvalid, hsame⟩ := (decode_values_iff front (by omega) hsmall _).mp hdecode
        subst hhrp hv
        exact ⟨by tauto, by rw [hsep, witness_address_eq, hsame], hshape.1, hvalid, hshape.2.2⟩
    · intro h
      have hv : version < 32 := lt_of_le_of_lt h.valid.version_le (by norm_num)
      obtain ⟨rfl, rfl⟩ := lower_cons h.address hv hsep hback
      have hsmall := address_values_small front hv program
      have hlen := address_values_length front version program
      rw [if_neg (by have := h.uniform; tauto), if_neg]
      · rw [(bech32_values_iff _ _).mpr ⟨rfl, hsmall⟩, Option.bind_some]
        exact (decode_values_iff front (by simp [check_groups]) hsmall _).mpr
          ⟨rfl, rfl, h.valid, rfl⟩
      · rw [List.length_map, hlen]
        have hle := h.length_le
        have hne := h.hrp_ne
        rintro (h | h | h)
        · exact hne h
        · omega
        · omega
  · refine ⟨none, witness_decode_none hmem, ?_⟩
    intro hrp version program
    constructor
    · intro h
      cases h
    · intro h
      rw [h.address, witness_address_eq] at hmem
      exact absurd (List.mem_append_right _ List.mem_cons_self) hmem

end WitnessDecode

section FullDecode

def is_lower (c : UInt8) : Prop := 0x61 ≤ c ∧ c ≤ 0x7a

def is_upper (c : UInt8) : Prop := 0x41 ≤ c ∧ c ≤ 0x5a

theorem not_both {c : UInt8} (hl : is_lower c) (hu : is_upper c) : False := by
  have hle := UInt8.le_iff_toNat_le.mp (UInt8.le_trans hl.1 hu.2)
  exact absurd hle (by decide)

theorem check_characters_iff (i : ℕ) {lower upper : Bool} (hflags : lower = false ∨ upper = false) (s : List UInt8) :
    check_characters i lower upper s = [] ↔ (∀ c ∈ s, 32 < c ∧ c < 127) ∧
      ((lower = false ∧ ∀ c ∈ s, ¬is_lower c) ∨ (upper = false ∧ ∀ c ∈ s, ¬is_upper c)) := by
  induction s generalizing i lower upper with
  | nil => simp [check_characters, hflags]
  | cons c s ih =>
    have hprint (lo hi : UInt8) (h1 : 32 < lo) (h2 : hi < 127) (h : lo ≤ c ∧ c ≤ hi) : 32 < c ∧ c < 127 :=
      ⟨UInt8.lt_of_lt_of_le h1 h.1, UInt8.lt_of_le_of_lt h.2 h2⟩
    rw [check_characters]
    simp only [List.forall_mem_cons]
    by_cases hl : is_lower c
    · have hu : ¬is_upper c := not_both hl
      have hc := hprint 0x61 0x7a (by decide) (by decide) hl
      rw [if_pos (show 0x61 ≤ c ∧ c ≤ 0x7a from hl)]
      cases upper with
      | true => simp [hl]
      | false =>
        rw [if_neg Bool.false_ne_true, ih (i + 1) (Or.inr rfl)]
        simp [hl, hu, hc]
    rw [if_neg (show ¬(0x61 ≤ c ∧ c ≤ 0x7a) from hl)]
    by_cases hu : is_upper c
    · have hc := hprint 0x41 0x5a (by decide) (by decide) hu
      rw [if_pos (show 0x41 ≤ c ∧ c ≤ 0x5a from hu)]
      cases lower with
      | true => simp [hu]
      | false =>
        rw [if_neg Bool.false_ne_true, ih (i + 1) (Or.inl rfl)]
        simp [hl, hu, hc]
    rw [if_neg (show ¬(0x41 ≤ c ∧ c ≤ 0x5a) from hu)]
    by_cases hbad : c ≤ 32 ∨ 127 ≤ c
    · have hc : ¬(32 < c ∧ c < 127) := by
        rw [not_and_or, UInt8.not_lt, UInt8.not_lt]
        exact hbad
      simp [hbad, hc]
    · have hc : 32 < c ∧ c < 127 := by
        rw [not_or, UInt8.not_le, UInt8.not_le] at hbad
        exact hbad
      rw [if_neg hbad, ih (i + 1) hflags]
      simp [hl, hu, hc]

theorem lower_eq_self (s : List UInt8) : to_ascii_lowercase s = s ↔ ∀ c ∈ s, ¬is_upper c := by
  rw [to_ascii_lowercase]
  conv_lhs => rhs; rw [← List.map_id s]
  rw [List.map_inj_left]
  apply forall₂_congr
  intro c _
  rw [← UInt8.toNat_inj, lower_toNat, id, is_upper, UInt8.le_iff_toNat_le, UInt8.le_iff_toNat_le,
    show (0x41 : UInt8).toNat = 0x41 from rfl, show (0x5a : UInt8).toNat = 0x5a from rfl]
  split_ifs with h
  · simp [h]
  · simp [h]

theorem upper_eq_self (s : List UInt8) : to_ascii_uppercase s = s ↔ ∀ c ∈ s, ¬is_lower c := by
  rw [to_ascii_uppercase]
  conv_lhs => rhs; rw [← List.map_id s]
  rw [List.map_inj_left]
  apply forall₂_congr
  intro c _
  rw [id, upper_byte]
  by_cases h : is_lower c
  · rw [if_pos (show 0x61 ≤ c ∧ c ≤ 0x7a from h)]
    have hne : c - 0x20 ≠ c := by
      intro heq
      have hsub := congrArg UInt8.toNat heq
      have hge := UInt8.le_iff_toNat_le.mp h.1
      rw [UInt8.toNat_sub_of_le _ _ (UInt8.le_trans (show (0x20 : UInt8) ≤ 0x61 by decide) h.1),
        show (0x20 : UInt8).toNat = 0x20 from rfl] at hsub
      rw [show (0x61 : UInt8).toNat = 0x61 from rfl] at hge
      omega
    exact iff_of_false hne (not_not.mpr h)
  · rw [if_neg (show ¬(0x61 ≤ c ∧ c ≤ 0x7a) from h)]
    exact iff_of_true rfl h

theorem check_characters_nil (s : List UInt8) : check_characters 0 false false s = [] ↔
    (∀ c ∈ s, 32 < c ∧ c < 127) ∧ (to_ascii_lowercase s = s ∨ to_ascii_uppercase s = s) := by
  rw [check_characters_iff 0 (Or.inl rfl), lower_eq_self, upper_eq_self]
  tauto

def encoding_const : Bech32Encoding → BitVec 32
  | .Bech32 => BECH32_CONST
  | .Bech32m => BECH32M_CONST

structure Checked (s hrp : List UInt8) (values : List ℕ) (enc : Bech32Encoding) : Prop where
  length_le : s.length ≤ 90
  printable : ∀ c ∈ s, 32 < c ∧ c < 127
  uniform : to_ascii_lowercase s = s ∨ to_ascii_uppercase s = s
  parts : to_ascii_lowercase s = hrp ++ 0x31 :: values.map symbol32
  hrp_ne : hrp ≠ []
  small : ∀ v ∈ values, v < 32
  length_ge : 6 ≤ values.length
  sum : polymod hrp values = encoding_const enc

variable {values : List ℕ}

theorem symbols_no_separator (h : ∀ v ∈ values, v < 32) : 0x31 ∉ values.map symbol32 := by
  intro hmem
  obtain ⟨v, hv, hone⟩ := List.mem_map.mp hmem
  exact symbol32_ne (h v hv) hone

theorem sum_cases {pm : BitVec 32} {hrp : List UInt8} (hsum : polymod hrp values = pm)
    (out : List UInt8 × List ℕ × Bech32Encoding) :
    (if pm = BECH32_CONST then Except.ok (hrp, values, Bech32Encoding.Bech32)
      else if pm = BECH32M_CONST then .ok (hrp, values, .Bech32m) else .error
        (("Invalid checksum", []) : DestError)) =
      .ok out ↔ out.1 = hrp ∧ out.2.1 = values ∧ polymod hrp values = encoding_const out.2.2 := by
  obtain ⟨h, vs, enc⟩ := out
  have hconst : BECH32_CONST ≠ BECH32M_CONST := by decide
  rw [hsum]
  split_ifs with h1 h2
  · cases enc <;> simp [encoding_const, h1, hconst, eq_comm]
  · cases enc <;> simp [encoding_const, h2, hconst.symm, eq_comm]
  · cases enc <;> simp [encoding_const, h1, h2]

theorem bech32_decode_full_iff (hs : Bounded s) : ∃ out, bech32_decode_full s = .ok out ∧
    ∀ hrp values enc, out = .ok (hrp, values, enc) ↔ Checked s hrp values enc := by
  rw [bech32_decode_full]
  by_cases hlong : 90 < s.length
  · refine ⟨_, by rw [if_pos hlong]; rfl, ?_⟩
    intro hrp values enc
    refine iff_of_false (by simp) fun h => ?_
    exact absurd h.length_le (by omega)
  rw [if_neg hlong]
  by_cases hlocs : check_characters 0 false false s ≠ []
  · refine ⟨_, by rw [if_pos hlocs]; rfl, ?_⟩
    intro hrp values enc
    refine iff_of_false (by simp) fun h => ?_
    exact hlocs ((check_characters_nil s).mpr ⟨h.printable, h.uniform⟩)
  obtain ⟨hprint, huniform⟩ := (check_characters_nil s).mp (not_not.mp hlocs)
  rw [if_neg hlocs]
  by_cases hmem : 0x31 ∉ to_ascii_lowercase s
  · have hnone : rfind (to_ascii_lowercase s) 0x31 = none := by
      rw [rfind, Option.map_eq_none_iff, List.idxOf?_eq_none_iff]
      exact fun h => hmem (List.mem_reverse.mp h)
    refine ⟨_, by dsimp only; rw [hnone]; rfl, ?_⟩
    intro hrp values enc
    refine iff_of_false (by simp) fun h => hmem ?_
    rw [h.parts]
    exact List.mem_append_right _ List.mem_cons_self
  obtain ⟨front, back, hsep, hback⟩ := exists_around (not_not.mp hmem)
  have hbound := bounded_lower hs
  rw [hsep] at hbound
  obtain ⟨hhrp, -⟩ := str_slice_around hbound
  have hlen : s.length = front.length + 1 + back.length := by
    rw [← lower_length s, hsep, List.length_append, List.length_cons]
    omega
  have hunique {hrp : List UInt8} {values : List ℕ} {enc : Bech32Encoding} (h : Checked s hrp values enc) :
      front = hrp ∧ back = values.map symbol32 :=
    around_unique hback (symbols_no_separator h.small) (hsep.symm.trans h.parts)
  rw [hsep]
  dsimp only
  rw [rfind_around hback]
  by_cases hpos : front.length = 0 ∨ s.length ≤ front.length + 6
  · refine ⟨_, by dsimp only; rw [if_pos hpos]; rfl, ?_⟩
    intro hrp values enc
    refine iff_of_false (by simp) fun h => ?_
    obtain ⟨rfl, rfl⟩ := hunique h
    have hne := List.length_pos_iff.mpr h.hrp_ne
    have hge := h.length_ge
    rw [List.length_map] at hlen
    omega
  have hdrop : (front ++ 0x31 :: back).drop (front.length + 1) = back := by
    have hassoc : front ++ 0x31 :: back = front ++ [0x31] ++ back := by simp
    rw [hassoc, List.drop_left' (by simp)]
  dsimp only
  rw [if_neg hpos, hhrp, ok_bind, hdrop]
  have hvalues := located_values_eq 0 back
  cases hlocated : located_values 0 back with
  | error i =>
    refine ⟨_, rfl, ?_⟩
    intro hrp values enc
    refine iff_of_false (by simp) fun h => ?_
    obtain ⟨rfl, rfl⟩ := hunique h
    rw [hlocated, (bech32_values_iff _ _).mpr ⟨rfl, h.small⟩] at hvalues
    cases hvalues
  | ok values =>
    rw [hlocated] at hvalues
    obtain ⟨rfl, hsmall⟩ := (bech32_values_iff back values).mp hvalues.symm
    rw [List.length_map] at hlen
    refine ⟨if polymod front values = BECH32_CONST then .ok (front, values, .Bech32)
      else if polymod front values = BECH32M_CONST then .ok (front, values, .Bech32m)
      else .error ("Invalid checksum", []), by dsimp only; split_ifs <;> rfl, ?_⟩
    intro hrp values' enc
    rw [sum_cases rfl]
    constructor
    · rintro ⟨hh, hv, hsum⟩
      dsimp only at hh hv hsum
      subst hh hv
      exact ⟨by omega, hprint, huniform, hsep, by rintro rfl; exact hpos (Or.inl rfl), hsmall, by omega, hsum⟩
    · intro h
      obtain ⟨rfl, hsame⟩ := hunique h
      have hback' := (bech32_values_iff _ values').mpr ⟨hsame, h.small⟩
      rw [(bech32_values_iff _ values).mpr ⟨rfl, hsmall⟩] at hback'
      obtain rfl := Option.some.inj hback'
      exact ⟨rfl, rfl, h.sum⟩

theorem validate_values_iff (params : AddressParams) (hrp : List UInt8) (hsmall : ∀ v ∈ values, v < 32)
    (enc : Bech32Encoding) (hsum : polymod hrp values = encoding_const enc) :
    ∃ out, validate_values params hrp values enc = .ok out ∧
      ∀ script, (∃ info, out = .ok info ∧ info.script = script) ↔ hrp = params.bech32_hrp ∧
        ∃ version program, ValidProgram version program ∧ values = address_values hrp version program ∧
          script = witness_script version program := by
  have hnever {e : DestError} (h : ∀ version program, ValidProgram version program →
      values = address_values hrp version program → hrp ≠ params.bech32_hrp) (script : Script) :
      (∃ info : AddressInfo, (Except.error e : Except DestError AddressInfo) = .ok info ∧ info.script = script) ↔
        hrp = params.bech32_hrp ∧ ∃ version program, ValidProgram version program ∧
          values = address_values hrp version program ∧ script = witness_script version program := by
    refine iff_of_false (by simp) ?_
    rintro ⟨hhrp, version, program, hvalid, hvalues, -⟩
    exact h version program hvalid hvalues hhrp
  rw [validate_values]
  by_cases hshort : values.length ≤ 6
  · refine ⟨_, by rw [if_pos hshort]; rfl, hnever ?_⟩
    rintro version program - rfl
    rw [address_values_length] at hshort
    omega
  rw [if_neg hshort]
  by_cases hhrp : hrp ≠ params.bech32_hrp
  · exact ⟨_, by rw [if_pos hhrp]; rfl, hnever fun _ _ _ _ => hhrp⟩
  rw [if_neg hhrp]
  cases values with
  | nil => simp at hshort
  | cons version rest =>
    have hsix : 6 ≤ rest.length := by
      rw [List.length_cons] at hshort
      omega
    have hsame (v : ℕ) (program : List UInt8) : version :: rest = address_values hrp v program ↔
        v = version ∧ polymod hrp (version :: rest) = checksum_const version ∧
          regroup_bytes (rest.take (rest.length - 6)) = some program := by
      rw [values_iff hrp hsix hsmall]
      constructor
      · intro h
        obtain ⟨rfl, -⟩ := List.cons.inj h
        exact ⟨rfl, h⟩
      · rintro ⟨rfl, h⟩
        exact h
    rw [List.getD_cons_zero]
    have hconst : BECH32_CONST ≠ BECH32M_CONST := by decide
    by_cases hm : version = 0 ∧ enc = .Bech32m
    · refine ⟨_, by rw [if_pos hm]; rfl, hnever ?_⟩
      rintro v program - hv
      obtain ⟨-, hv, -⟩ := (hsame v program).mp hv
      rw [hsum, hm.1, hm.2] at hv
      exact absurd hv.symm hconst
    rw [if_neg hm]
    by_cases hb : version ≠ 0 ∧ enc = .Bech32
    · refine ⟨_, by rw [if_pos hb]; rfl, hnever ?_⟩
      rintro v program - hv
      obtain ⟨-, hv, -⟩ := (hsame v program).mp hv
      rw [hsum, hb.2, checksum_const, if_neg hb.1] at hv
      exact absurd hv hconst
    rw [if_neg hb]
    have hchecked : polymod hrp (version :: rest) = checksum_const version := by
      rw [hsum, checksum_const]
      cases enc with
      | Bech32 => rw [if_pos (by tauto)]; rfl
      | Bech32m => rw [if_neg (by tauto)]; rfl
    have hcount : sub (version :: rest).length 6 = .ok (rest.length - 6 + 1) := by
      rw [sub, List.length_cons, if_pos (by omega)]
      congr 1
      omega
    have hdata : slice (version :: rest) 1 (rest.length - 6 + 1) = .ok (rest.take (rest.length - 6)) := by
      rw [slice, List.length_cons, if_pos (by omega)]
      rfl
    rw [hcount, ok_bind, hdata, ok_bind]
    have hfound {found : Option (List UInt8)} (h : regroup_bytes (rest.take (rest.length - 6)) = found)
        {v : ℕ} {program : List UInt8} (hv : version :: rest = address_values hrp v program) :
        v = version ∧ found = some program := by
      obtain ⟨hv, -, hp⟩ := (hsame v program).mp hv
      exact ⟨hv, h.symm.trans hp⟩
    cases hregroup : regroup_bytes (rest.take (rest.length - 6)) with
    | none =>
      refine ⟨_, rfl, hnever fun v program _ hv => ?_⟩
      cases (hfound hregroup hv).2
    | some program =>
      have hok {info : AddressInfo} (hvalid : ValidProgram version program)
          (hinfo : info.script = witness_script version program) (script : Script) :
          (∃ found : AddressInfo, (Except.ok info : Except DestError AddressInfo) = .ok found ∧
            found.script = script) ↔
            hrp = params.bech32_hrp ∧ ∃ version' program', ValidProgram version' program' ∧
              version :: rest = address_values hrp version' program' ∧ script = witness_script version' program' := by
        constructor
        · rintro ⟨found, hfound, rfl⟩
          obtain rfl := Except.ok.inj hfound
          exact ⟨not_not.mp hhrp, version, program, hvalid, (hsame _ _).mpr ⟨rfl, hchecked, hregroup⟩, hinfo⟩
        · rintro ⟨-, version', program', -, hv, rfl⟩
          obtain ⟨rfl, hp⟩ := hfound hregroup hv
          rw [← Option.some.inj hp]
          exact ⟨info, rfl, hinfo⟩
      have hbad {e : DestError} (h : ¬ValidProgram version program) (script : Script) := by
        refine hnever (e := e) ?_ script
        rintro v found hvalid hv
        obtain ⟨rfl, hp⟩ := hfound hregroup hv
        rw [← Option.some.inj hp] at hvalid
        exact absurd hvalid h
      dsimp only
      by_cases h0 : version = 0
      · rw [if_pos h0]
        by_cases hsize : program.length ≠ 20 ∧ program.length ≠ 32
        · refine ⟨_, by rw [if_pos hsize]; rfl, hbad fun h => ?_⟩
          have := h.sizes h0
          omega
        · refine ⟨_, by rw [if_neg hsize]; rfl, hok ⟨?_, ?_, ?_, ?_⟩ rfl⟩ <;> omega
      · rw [if_neg h0]
        by_cases h16 : 16 < version
        · refine ⟨_, by rw [if_pos h16]; rfl, hbad fun h => ?_⟩
          exact absurd h.version_le (by omega)
        rw [if_neg h16]
        by_cases hsize : program.length < 2 ∨ 40 < program.length
        · refine ⟨_, by rw [if_pos hsize]; rfl, hbad fun h => ?_⟩
          have hge := h.length_ge
          have hle := h.length_le
          omega
        · refine ⟨_, by rw [if_neg hsize]; rfl, hok ⟨?_, ?_, ?_, ?_⟩ rfl⟩ <;> omega

end FullDecode

end AvilaNode.Address
