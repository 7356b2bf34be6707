import AvilaNode.Miniscript
import AvilaNode.ScriptOpcodes

/-! The fragments without subexpressions. -/

namespace AvilaNode.Miniscript

open Interpreter OraclePrograms Effect

variable {answer : (q : Query) → Answer q} {env : Env}

variable {n : ℕ} {fragment : Fragment}

theorem build_num_eq (h : 16 < n) (hn : n < 4294967296) :
    build_num n = push_slice (Interpreter.encode_script_num n) := by
  have hbytes : le_bytes 8 n = le_bytes 4 n := le_bytes_eq (by norm_num; exact hn) 4
  have hne : (n : ℤ) ≠ 0 := by omega
  have hneg : ¬(n : ℤ) < 0 := by omega
  unfold build_num Interpreter.encode_script_num
  rw [if_neg (by omega), if_neg (by omega), if_neg hne]
  simp only [Int.natAbs_natCast, hbytes, if_neg hneg, ne_eq, and_sign, UInt8.not_lt]

theorem length_le_bytes_of_le {fuel : ℕ} (h : 256 ^ fuel ≤ n) : (le_bytes fuel n).length = fuel := by
  induction fuel generalizing n with
  | zero => rfl
  | succ fuel ih =>
    have hpos : 0 < 256 ^ (fuel + 1) := Nat.pow_pos (by decide)
    have hdiv : 256 ^ fuel ≤ n / 256 := by
      rw [Nat.le_div_iff_mul_le (by decide), ← pow_succ]
      exact h
    rw [le_bytes, if_neg (by omega), List.length_cons, ih hdiv]

theorem length_encode_of_le (h : 256 ^ 8 ≤ n) : 8 ≤ (Interpreter.encode_script_num n).length := by
  have h8 := length_le_bytes_of_le h
  have hne : (n : ℤ) ≠ 0 := by
    have : 0 < 256 ^ 8 := by norm_num
    omega
  have hneg : ¬(n : ℤ) < 0 := by omega
  unfold Interpreter.encode_script_num
  rw [if_neg hne]
  simp only [Int.natAbs_natCast, if_neg hneg]
  split
  · simp only [List.length_append, List.length_singleton]
    omega
  · omega

theorem eq_of_encode_32 (h : Interpreter.encode_script_num n = Interpreter.encode_script_num (32 : ℕ)) : n = 32 := by
  by_cases hn : n < 256 ^ 8
  · exact encode_script_num_inj hn (by norm_num) h
  · have hlen := length_encode_of_le (Nat.not_lt.mp hn)
    rw [h] at hlen
    exact absurd hlen (by decide)

theorem number_encode {m : ℤ} (h : IsNumber (Interpreter.encode_script_num n) m) : m = n := by
  obtain ⟨minimal, h⟩ := h
  by_cases hn : n < 256 ^ 8
  · exact script_num_encode hn (by decide) h
  · have hlen := length_encode_of_le (Nat.not_lt.mp hn)
    unfold script_num at h
    rw [if_pos (by unfold MAX_SCRIPTNUM_SIZE; omega)] at h
    cases h

theorem Result.of_bool {t : MsType} {sat : Prop} {b : Bool} (h : b = true → sat) : Result t sat (bool_element b) where
  sat hb := h (by simpa using hb)
  u _ hb := by
    rw [cast_bool_element] at hb
    rw [hb]
    rfl

variable [Digests]

theorem codes_build_num (hn : n < 4294967296) : Codes answer env (build_num n)
    (on_stack fun s t => t = Interpreter.encode_script_num n :: s) := by
  by_cases hz : n = 0
  · subst hz
    exact codes_push (by simp : ([] : Element).length < 4294967296)
  by_cases h16 : n ≤ 16
  · have hop : OP_1 + UInt8.ofNat n - 1 = UInt8.ofNat (80 + n) := by
      have hfin : ∀ i : Fin 17, OP_1 + UInt8.ofNat i.val - 1 = UInt8.ofNat (80 + i.val) := by decide
      exact hfin ⟨n, by omega⟩
    have hval : (UInt8.ofNat (80 + n)).toNat = 80 + n := by
      rw [UInt8.toNat_ofNat']
      omega
    have hcode : build_num n = [UInt8.ofNat (80 + n)] := by rw [build_num, if_neg hz, if_pos h16, hop]
    have hle : OP_1 ≤ UInt8.ofNat (80 + n) ∧ UInt8.ofNat (80 + n) ≤ OP_16 := by
      simp only [UInt8.le_iff_toNat_le, hval, show OP_1.toNat = 81 from rfl, show OP_16.toNat = 96 from rfl]
      omega
    rw [hcode]
    refine (codes_small_number hle).mono ?_
    rintro v w ⟨hw, ht⟩
    refine ⟨hw, ht.trans ?_⟩
    rw [hval]
    congr 2
    omega
  · rw [build_num_eq (by omega) hn]
    refine codes_push ?_
    have hlen := length_le_bytes_le 8 n
    unfold Interpreter.encode_script_num
    split
    · simp
    simp only [Int.natAbs_natCast]
    split
    · simp only [List.length_append, List.length_singleton]
      omega
    · split
      · simp only [List.length_append, List.length_dropLast, List.length_singleton]
        omega
      · omega

theorem Sound.of_verdict {p : Part} (hV : p.typ.has .V = false) (hK : p.typ.has .K = false)
    (hW : p.typ.has .W = false)
    (hx : p.typ.has .x = false)
    (h : p.typ.has .B = true → ∀ verify, Codes answer env (p.script verify) (on_stack fun s t =>
      ∃ n rest ok, Takes p.typ n s rest ∧ (ok = true → p.sat) ∧ Leaves verify ok rest t)) : Sound answer env p where
  b hB := (h hB false).weaken fun s t ⟨n, rest, ok, ht, hs, hl⟩ => ⟨n, rest, bool_element ok, ht, .of_bool hs, hl⟩
  v h := absurd h (by simp [hV])
  k h := absurd h (by simp [hK])
  w h := absurd h (by simp [hW])
  same _ h := absurd h (by simp [hx])
  fused hB _ := (h hB true).weaken fun s t ⟨n, rest, ok, ht, hs, hl⟩ => ⟨n, hl.2 ▸ ht, hs hl.1⟩

theorem Sound.of_plain {p : Part} (hsame : p.script true = p.script false)
    (hx : p.typ.has .B = true → p.typ.has .x = true)
    (hb : p.typ.has .B = true → Codes answer env (p.script false) (on_stack (ShapeB p.typ p.sat)))
    (hv : p.typ.has .V = true → Codes answer env (p.script false) (on_stack (ShapeV p.typ p.sat)))
    (hk : p.typ.has .K = true → Codes answer env (p.script false) (on_stack (ShapeK answer env p.typ p.sat)))
    (hw : p.typ.has .W = true → Codes answer env (p.script false) (on_stack (ShapeW p.typ p.sat))) :
    Sound answer env p where
  b := hb
  v := hv
  k := hk
  w := hw
  same _ _ := hsame
  fused hB h := absurd (hx hB) (by simp [h])

variable {sc : ScriptCtx} {ctx : MsContext} {k : ℕ} {keys : List ℕ} {data : List UInt8}

theorem sound_hash (hf : fragment = .Sha256 ∨ fragment = .Ripemd160 ∨ fragment = .Hash256 ∨ fragment = .Hash160)
    (hd : data.length < 4294967296) :
    Sound answer env (combine answer env sc ctx fragment k keys data []) := by
  have hop : hash_opcode fragment = OP_SHA256 ∨ hash_opcode fragment = OP_RIPEMD160 ∨
      hash_opcode fragment = OP_HASH256 ∨ hash_opcode fragment = OP_HASH160 := by
    rcases hf with rfl | rfl | rfl | rfl <;> decide
  have hcode (verify : Bool) : (combine answer env sc ctx fragment k keys data []).script verify =
      [OP_SIZE] ++ build_num 32 ++ [OP_EQUALVERIFY, hash_opcode fragment] ++ push_slice data
        ++ [if verify then OP_EQUALVERIFY else OP_EQUAL] := by
    rcases hf with rfl | rfl | rfl | rfl <;> rfl
  have hsat : (combine answer env sc ctx fragment k keys data []).sat = ∃ preimage : Element, preimage.length = 32 ∧
      digest (hash_opcode fragment) preimage = data := by
    rcases hf with rfl | rfl | rfl | rfl <;> rfl
  have htyp : (combine answer env sc ctx fragment k keys data []).typ =
      sanitize_type (mst [.B, .o, .n, .u, .d, .m, .k]) := by
    rcases hf with rfl | rfl | rfl | rfl <;> simp only [combine, calc_type, compute_type]
  have hruns (verify : Bool) : Codes answer env ((combine answer env sc ctx fragment k keys data []).script verify)
      (on_stack fun s t => ∃ x r ok, s = x :: r ∧ Leaves verify ok r t ∧
        (ok = true → x.length = 32 ∧ digest (hash_opcode fragment) x = data)) := by
    rw [hcode]
    refine ((((codes_size.andThen (codes_build_num (by decide))).andThen
      ((codes_equal true).andThen (codes_hash hop))).andThen (codes_push hd)).andThen (codes_equal verify)).weaken ?_
    rintro s t ⟨s₅, ⟨s₄, ⟨s₂, ⟨s₁, ⟨x, r, rfl, rfl⟩, rfl⟩, s₃, ⟨v, w, r', hs, hv⟩, y, r'', rfl, rfl⟩, rfl⟩, a, b,
      r₃, hs',
      ht⟩
    cases hs
    cases hs'
    obtain ⟨hlen, htop⟩ := hv
    cases htop
    exact ⟨x, r, _, rfl, ht, fun hok => ⟨eq_of_encode_32 (eq_of_beq hlen), eq_of_beq hok⟩⟩
  have hno (p : Property) (hp : p ∉ [.B, .o, .n, .u, .d, .m, .k]) :
      (combine answer env sc ctx fragment k keys data []).typ.has p = false := by
    rw [htyp, Bool.eq_false_iff]
    intro h
    exact hp (by simpa using has_of_sanitize h)
  refine Sound.of_verdict (hno _ (by decide)) (hno _ (by decide)) (hno _ (by decide))
    (hno _ (by decide)) fun _ verify =>
    (hruns verify).weaken ?_
  rintro s t ⟨x, r, ok, rfl, hl, hok⟩
  refine ⟨1, r, ok, ⟨by simp, rfl, ?_, fun _ => rfl⟩, fun h => ?_, hl⟩
  · rw [hno .z (by decide)]
    intro h
    cases h
  · rw [hsat]
    exact ⟨x, hok h⟩

theorem typ_leaf (h : (compute_type fragment .empty .empty .empty [] k 0 ctx).has .B ∨
    (compute_type fragment .empty .empty .empty [] k 0 ctx).has .K) :
    (combine answer env sc ctx fragment k keys data []).typ =
      compute_type fragment .empty .empty .empty [] k 0 ctx := by
  have he : (combine answer env sc ctx fragment k keys data []).typ =
      sanitize_type (compute_type fragment .empty .empty .empty [] k 0 ctx) := by simp [combine, calc_type]
  rw [he]
  rcases h with h | h
  · exact sanitize_of_base (Or.inl h)
  · exact sanitize_of_base (Or.inr (Or.inr (Or.inl h)))

theorem sound_just1 : Sound answer env (combine answer env sc ctx .Just1 k keys data []) := by
  have htyp : (combine answer env sc ctx .Just1 k keys data []).typ = _ := typ_leaf (Or.inl (by simp [compute_type]))
  refine Sound.of_plain rfl (fun _ => by rw [htyp]; simp [compute_type]) (fun _ => ?_) ?_ ?_ ?_
  · refine (codes_small_number (by decide : OP_1 ≤ OP_1 ∧ OP_1 ≤ OP_16)).weaken ?_
    rintro s t rfl
    refine ⟨0, s, _, ⟨by simp, rfl, fun _ => rfl, ?_⟩, ⟨fun _ => trivial, fun _ _ => rfl⟩, rfl⟩
    rw [htyp]
    simp [compute_type]
  all_goals
    rw [htyp]
    simp [compute_type]

theorem sound_just0 : Sound answer env (combine answer env sc ctx .Just0 k keys data []) := by
  have htyp : (combine answer env sc ctx .Just0 k keys data []).typ = _ := typ_leaf (Or.inl (by simp [compute_type]))
  refine Sound.of_plain rfl (fun _ => by rw [htyp]; simp [compute_type]) (fun _ => ?_) ?_ ?_ ?_
  · refine (codes_push (by simp : ([] : Element).length < 4294967296)).weaken ?_
    rintro s t rfl
    refine ⟨0, s, [], ⟨by simp, rfl, fun _ => rfl, ?_⟩, ⟨by simp [cast_to_bool], by simp [cast_to_bool]⟩, rfl⟩
    rw [htyp]
    simp [compute_type]
  all_goals
    rw [htyp]
    simp [compute_type]

theorem sound_pk_k : Sound answer env (combine answer env sc ctx .PkK k keys data []) := by
  have htyp : (combine answer env sc ctx .PkK k keys data []).typ = _ := typ_leaf (Or.inr (by simp [compute_type]))
  refine Sound.of_plain rfl (fun _ => by rw [htyp]; simp [compute_type]) ?_ ?_ (fun _ => ?_) ?_
  case refine_3 =>
    refine (codes_push (sc.pk_fits (keys.getD 0 0))).weaken ?_
    rintro s t rfl
    refine ⟨0, _, by simp, rfl, fun _ => rfl, ?_, id⟩
    rw [htyp]
    simp [compute_type]
  all_goals
    rw [htyp]
    simp [compute_type]

theorem sound_pk_h : Sound answer env (combine answer env sc ctx .PkH k keys data []) := by
  have htyp : (combine answer env sc ctx .PkH k keys data []).typ = _ := typ_leaf (Or.inr (by simp [compute_type]))
  have hcode : (combine answer env sc ctx .PkH k keys data []).script false =
      [OP_DUP] ++ [OP_HASH160] ++ push_slice (sc.to_pkh_bytes (keys.getD 0 0)) ++ [OP_EQUALVERIFY] := rfl
  refine Sound.of_plain rfl (fun _ => by rw [htyp]; simp [compute_type]) ?_ ?_ (fun _ => ?_) ?_
  case refine_3 =>
    rw [hcode]
    refine (((codes_dup.andThen (codes_hash (by simp))).andThen (codes_push (sc.pkh_fits _))).andThen
      (codes_equal true)).weaken ?_
    rintro s t ⟨_, ⟨_, ⟨_, ⟨x, r, rfl, rfl⟩, y, r', hs, rfl⟩, rfl⟩, v, w, r₂, hs', hok, rfl⟩
    cases hs
    cases hs'
    refine ⟨1, x, by simp, rfl, ?_, ?_, fun hsigned => ⟨x, eq_of_beq hok, hsigned⟩⟩
    all_goals
      rw [htyp]
      simp [compute_type]
  all_goals
    rw [htyp]
    simp [compute_type]

theorem sound_lock {opcode : UInt8} (hk : k < 4294967296)
    (htyp : (combine answer env sc ctx fragment k keys data []).typ =
      compute_type fragment .empty .empty .empty [] k 0 ctx)
    (hno : ∀ p ∈ [Property.V, .K, .W, .o, .u], (compute_type fragment .empty .empty .empty [] k 0 ctx).has p = false)
    (hx : (compute_type fragment .empty .empty .empty [] k 0 ctx).has .x = true)
    (hcode : ∀ verify, (combine answer env sc ctx fragment k keys data []).script verify = build_num k ++ [opcode])
    (hop : Codes answer env [opcode] (on_stack fun s t => t = s ∧
      (s.head? = some (Interpreter.encode_script_num k) → (combine answer env sc ctx fragment k keys data []).sat)))
    :
    Sound answer env (combine answer env sc ctx fragment k keys data []) := by
  refine Sound.of_plain ((hcode true).trans (hcode false).symm) (fun _ => by rw [htyp, hx]) (fun _ => ?_) ?_ ?_ ?_
  · rw [hcode]
    refine ((codes_build_num hk).andThen hop).weaken ?_
    rintro s t ⟨_, rfl, rfl, hsat⟩
    refine ⟨0, s, _, ⟨by simp, rfl, fun _ => rfl, ?_⟩, ⟨fun _ => hsat rfl, ?_⟩, rfl⟩
    all_goals
      rw [htyp, hno _ (by decide)]
      exact nofun
  all_goals
    rw [htyp, hno _ (by decide)]
    exact nofun

theorem sound_after (hk : k < 2147483648) : Sound answer env (combine answer env sc ctx .After k keys data []) := by
  refine sound_lock (by omega) (typ_leaf (Or.inl (by simp [compute_type]))) (by simp [compute_type])
    (by simp [compute_type]) (fun _ => rfl) (codes_checklocktimeverify.weaken ?_)
  rintro s t ⟨rfl, hlock⟩
  refine ⟨rfl, fun hhead hflag => ?_⟩
  obtain ⟨v, r, minimal, n, rfl, hn, ha⟩ := hlock hflag
  obtain rfl : v = Interpreter.encode_script_num k := Option.some.inj hhead
  rwa [script_num_encode (by norm_num; omega) (by decide) hn] at ha

theorem sound_older (hk : k < 2147483648) : Sound answer env (combine answer env sc ctx .Older k keys data []) := by
  refine sound_lock (by omega) (typ_leaf (Or.inl (by simp [compute_type]))) (by simp [compute_type])
    (by simp [compute_type]) (fun _ => rfl) (codes_checksequenceverify.weaken ?_)
  rintro s t ⟨rfl, hlock⟩
  refine ⟨rfl, fun hhead hflag => ?_⟩
  obtain ⟨v, r, minimal, n, rfl, hn, ha⟩ := hlock hflag
  obtain rfl : v = Interpreter.encode_script_num k := Option.some.inj hhead
  obtain rfl := script_num_encode (by norm_num; omega) (by decide) hn
  refine ha ?_
  apply Nat.eq_of_testBit_eq
  intro i
  rw [Int.toNat_natCast, SEQUENCE_LOCKTIME_DISABLE_FLAG, Nat.one_shiftLeft, Nat.testBit_and, Nat.testBit_two_pow,
    Nat.zero_testBit, Bool.and_eq_false_iff, decide_eq_false_iff_not]
  by_cases hi : 31 = i
  · rw [← hi]
    exact Or.inl (Nat.testBit_lt_two_pow (by norm_num; exact hk))
  · exact Or.inr hi

end AvilaNode.Miniscript
