import AvilaNode.MiniscriptLeaves

/-! The wrappers, and shapes below which elements were taken already. -/

namespace AvilaNode.Miniscript

open Interpreter OraclePrograms Effect

section Shapes

variable {answer : (q : Query) → Answer q} {env : Env} {t t' : MsType} {sat sat' : Prop} {n : ℕ} {s s' : List Element}

theorem Takes.after {m : ℕ} {rest : List Element} (h : Takes t' m (s.drop n) rest) (hn : n ≤ s.length)
    (hz : t.has .z = true → n = 0 ∧ t'.has .z = true)
    (ho : t.has .o = true → (t'.has .z = true → m = 0) → (t'.has .o = true → m = 1) → n + m = 1) :
    Takes t (n + m) s rest where
  le := by
    have := h.le
    rw [List.length_drop] at this
    omega
  eq := by rw [h.eq, List.drop_drop]
  z hz' := by
    obtain ⟨rfl, hz'⟩ := hz hz'
    rw [h.z hz']
  o ho' := ho ho' h.z h.o

theorem Result.mono {r : Element} (h : Result t' sat' r) (hu : t.has .u = true → t'.has .u = true)
    (hsat : sat' → sat) :
    Result t sat r where
  sat hr := hsat (h.sat hr)
  u hu' := h.u (hu hu')

theorem ShapeB.after (h : ShapeB t' sat' (s.drop n) s') (hn : n ≤ s.length)
    (hz : t.has .z = true → n = 0 ∧ t'.has .z = true)
    (ho : ∀ m, t.has .o = true → (t'.has .z = true → m = 0) → (t'.has .o = true → m = 1) → n + m = 1)
    (hu : t.has .u = true → t'.has .u = true) (hsat : sat' → sat) : ShapeB t sat s s' := by
  obtain ⟨m, rest, r, ht, hr, rfl⟩ := h
  exact ⟨n + m, rest, r, ht.after hn hz (ho m), hr.mono hu hsat, rfl⟩

theorem ShapeV.after (h : ShapeV t' sat' (s.drop n) s') (hn : n ≤ s.length)
    (hz : t.has .z = true → n = 0 ∧ t'.has .z = true)
    (ho : ∀ m, t.has .o = true → (t'.has .z = true → m = 0) → (t'.has .o = true → m = 1) → n + m = 1)
    (hsat : sat' → sat) : ShapeV t sat s s' := by
  obtain ⟨m, ht, hs⟩ := h
  exact ⟨n + m, ht.after hn hz (ho m), hsat hs⟩

theorem ShapeK.after (h : ShapeK answer env t' sat' (s.drop n) s') (hn : n ≤ s.length)
    (hz : t.has .z = true → t'.has .z = true)
    (ho : t.has .o = true → t'.has .z = false → n = 0 ∧ t'.has .o = true) (hsat : sat' → sat) :
    ShapeK answer env t sat s s' := by
  obtain ⟨m, pubkey, hm, rfl, ho', hz', hs⟩ := h
  rw [List.length_drop] at hm
  refine ⟨n + m, pubkey, by omega, by rw [List.drop_drop], fun h => ?_, ?_, fun h => hsat (hs h)⟩
  · obtain ⟨rfl, h⟩ := ho h hz'
    rw [ho' h]
  · rw [Bool.eq_false_iff]
    intro h
    rw [hz h] at hz'
    cases hz'

theorem eq_one_of_minimal {v : Element} (hmin : not_minimal_if v = false) (hv : cast_to_bool v = true) : v = [1] := by
  obtain _ | ⟨a, _ | ⟨b, v⟩⟩ := v
  · simp [cast_to_bool] at hv
  · have : a = 1 := by simpa [not_minimal_if] using hmin
    rw [this]
  · simp [not_minimal_if] at hmin

end Shapes

variable [Digests] {answer : (q : Query) → Answer q} {env : Env} {sc : ScriptCtx} {ctx : MsContext} {k : ℕ}
  {keys : List ℕ} {data : List UInt8} {x y z : Part}

variable {fragment : Fragment} {parts : List Part}

theorem typ_of_has {p : Property} (hf : fragment ≠ .Thresh)
    (h : (combine answer env sc ctx fragment k keys data parts).typ.has p = true) :
    (combine answer env sc ctx fragment k keys data parts).typ =
      compute_type fragment ((parts.map Part.typ).getD 0 .empty) ((parts.map Part.typ).getD 1 .empty)
        ((parts.map Part.typ).getD 2 .empty) [] k parts.length ctx := by
  simp only [combine, calc_type, if_neg hf, List.length_map] at h ⊢
  exact sanitize_of_has h

theorem typ_lacks {p : Property} (hf : fragment ≠ .Thresh)
    (h : (compute_type fragment ((parts.map Part.typ).getD 0 .empty) ((parts.map Part.typ).getD 1 .empty)
        ((parts.map Part.typ).getD 2 .empty) [] k parts.length ctx).has p = false) :
    (combine answer env sc ctx fragment k keys data parts).typ.has p = false := by
  rw [Bool.eq_false_iff]
  intro hp
  have := hp
  rw [typ_of_has hf hp, h] at this
  cases this

theorem sound_wrap_a (hx : Sound answer env x) :
    Sound answer env (combine answer env sc ctx .WrapA k keys data [x]) := by
  have hcode (verify : Bool) : (combine answer env sc ctx .WrapA k keys data [x]).script verify =
      [OP_TOALTSTACK] ++ x.script false ++ [OP_FROMALTSTACK] := rfl
  have hB : (combine answer env sc ctx .WrapA k keys data [x]).typ.has .B = false :=
    typ_lacks (by decide) (by simp [compute_type])
  refine Sound.of_plain rfl (fun h => by rw [hB] at h; cases h) (fun h => by rw [hB] at h; cases h) (fun h => ?_)
    (fun h => ?_) (fun h => ?_)
  · rw [typ_of_has (by decide) h] at h
    simp [compute_type] at h
  · rw [typ_of_has (by decide) h] at h
    simp [compute_type] at h
  · have htyp := typ_of_has (by decide) h
    rw [htyp] at h
    have hxB : x.typ.has .B = true := by simpa [compute_type] using h
    rw [hcode]
    refine ((codes_toaltstack.append (hx.b hxB)).append codes_fromaltstack).mono ?_
    rintro v w ⟨⟨s₂, a₂⟩, ⟨⟨s₁, a₁⟩, ⟨top, below, hs, h₁⟩, ha, n, rest, r, htakes, hr, hs₂⟩, top', a, ha', rfl⟩
    cases h₁
    subst ha hs₂
    cases ha'
    refine ⟨rfl, top, s₁, n, rest, r, hs, ⟨htakes.le, htakes.eq, ?_, ?_⟩, hr.mono ?_ id, Or.inl rfl⟩
    all_goals
      rw [htyp]
      simp [compute_type]

theorem sound_wrap_s (hx : Sound answer env x) :
    Sound answer env (combine answer env sc ctx .WrapS k keys data [x]) := by
  have hB : (combine answer env sc ctx .WrapS k keys data [x]).typ.has .B = false :=
    typ_lacks (by decide) (by simp [compute_type])
  have hV : (combine answer env sc ctx .WrapS k keys data [x]).typ.has .V = false :=
    typ_lacks (by decide) (by simp [compute_type])
  have hK : (combine answer env sc ctx .WrapS k keys data [x]).typ.has .K = false :=
    typ_lacks (by decide) (by simp [compute_type])
  refine ⟨fun h => ?_, fun h => ?_, fun h => ?_, fun h => ?_, fun h => ?_, fun h => ?_⟩
  case refine_4 =>
    have htyp := typ_of_has (by decide) h
    rw [htyp] at h
    have hxB : x.typ.has .B = true ∧ x.typ.has .o = true := by simpa [compute_type] using h
    refine (codes_swap.andThen (hx.b hxB.1)).weaken ?_
    rintro s t ⟨_, ⟨v, w, r, rfl, rfl⟩, n, rest, res, htakes, hr, rfl⟩
    obtain rfl := htakes.o hxB.2
    refine ⟨v, w :: r, 1, r, res, rfl, ⟨by simp, rfl, ?_, ?_⟩, hr.mono ?_ id, Or.inr (by rw [htakes.eq]; rfl)⟩
    all_goals
      rw [htyp]
      simp [compute_type]
  all_goals simp_all

theorem sound_wrap_c (hb : env.sigversion ≠ .Base) (hx : Sound answer env x) :
    Sound answer env (combine answer env sc ctx .WrapC k keys data [x]) := by
  refine Sound.of_verdict (typ_lacks (by decide) (by simp [compute_type]))
    (typ_lacks (by decide) (by simp [compute_type]))
    (typ_lacks (by decide) (by simp [compute_type])) (typ_lacks (by decide) (by simp [compute_type]))
    fun h verify => ?_
  have htyp := typ_of_has (by decide) h
  rw [htyp] at h
  have hxK : x.typ.has .K = true := by simpa [compute_type] using h
  refine ((hx.k hxK).andThen (codes_checksig hb verify)).weaken ?_
  rintro s t ⟨_, ⟨n, pubkey, hn, rfl, ho, hz, hsat⟩, pubkey', sig, r, ok, hs, hok, ht⟩
  simp only [List.cons.injEq] at hs
  obtain ⟨rfl, hs⟩ := hs
  have hlen := congrArg List.length hs
  rw [List.length_drop, List.length_cons] at hlen
  refine ⟨n + 1, r, ok, ⟨by omega, by rw [← List.drop_drop, hs]; rfl, ?_, ?_⟩, fun h => hsat ⟨sig, hok h⟩, ht⟩
  · rw [htyp]
    simp [compute_type]
  · rw [htyp]
    intro h
    rw [ho (by simpa [compute_type] using h)]

theorem sound_wrap_v (hx : Sound answer env x) :
    Sound answer env (combine answer env sc ctx .WrapV k keys data [x]) := by
  have hcode (verify : Bool) : (combine answer env sc ctx .WrapV k keys data [x]).script verify =
      x.script true ++ if x.typ.has_all (mst [.x]) then [OP_VERIFY] else [] := rfl
  refine Sound.of_plain rfl (fun h => ?_) (fun h => ?_) (fun h => ?_) (fun h => ?_) (fun h => ?_)
  case refine_3 =>
    have htyp := typ_of_has (by decide) h
    rw [htyp] at h
    have hxB : x.typ.has .B = true := by simpa [compute_type] using h
    have hz : (combine answer env sc ctx .WrapV k keys data [x]).typ.has .z = true → x.typ.has .z = true := by
      rw [htyp]
      simp [compute_type]
    have ho : (combine answer env sc ctx .WrapV k keys data [x]).typ.has .o = true → x.typ.has .o = true := by
      rw [htyp]
      simp [compute_type]
    rw [hcode]
    cases hxx : x.typ.has .x with
    | false =>
      simp only [MsType.has_all_mst, List.all_cons, List.all_nil, hxx, Bool.false_and, Bool.false_eq_true, if_false,
        List.append_nil]
      refine (hx.fused hxB hxx).weaken ?_
      rintro s t ⟨n, ht, hsat⟩
      exact ⟨n, ⟨ht.le, ht.eq, fun h => ht.z (hz h), fun h => ht.o (ho h)⟩, hsat⟩
    | true =>
      simp only [MsType.has_all_mst, List.all_cons, List.all_nil, hxx, Bool.and_self, if_true]
      rw [hx.same hxB hxx]
      refine ((hx.b hxB).andThen codes_verify).weaken ?_
      rintro s t ⟨_, ⟨n, rest, r, ht, hr, rfl⟩, v, r', hs, hv, rfl⟩
      cases hs
      exact ⟨n, ⟨ht.le, ht.eq, fun h => ht.z (hz h), fun h => ht.o (ho h)⟩, hr.sat hv⟩
  all_goals
    rw [typ_of_has (by decide) h] at h
    simp [compute_type] at h

theorem sound_wrap_n (hx : Sound answer env x) :
    Sound answer env (combine answer env sc ctx .WrapN k keys data [x]) := by
  refine Sound.of_plain rfl (fun h => ?_) (fun h => ?_) (fun h => ?_) (fun h => ?_) (fun h => ?_)
  case refine_1 =>
    rw [typ_of_has (by decide) h]
    simp [compute_type]
  case refine_2 =>
    have htyp := typ_of_has (by decide) h
    rw [htyp] at h
    have hxB : x.typ.has .B = true := by simpa [compute_type] using h
    refine ((hx.b hxB).andThen codes_0notequal).weaken ?_
    rintro s t ⟨_, ⟨n, rest, r, ht, hr, rfl⟩, v, r', m, hs, ⟨minimal, hm⟩, rfl⟩
    cases hs
    refine ⟨n, rest, _, ⟨ht.le, ht.eq, fun h => ht.z ?_, fun h => ht.o ?_⟩, .of_bool fun h => hr.sat ?_, rfl⟩
    · rw [htyp] at h
      simpa [compute_type] using h
    · rw [htyp] at h
      simpa [compute_type] using h
    · by_contra hf
      rw [script_num_of_false (by decide) (by simpa using hf) hm] at h
      simp at h
  all_goals
    rw [typ_of_has (by decide) h] at h
    simp [compute_type] at h

theorem sound_wrap_d (hctx : is_tapscript ctx = true → env.sigversion = .Tapscript) (hx : Sound answer env x) :
    Sound answer env (combine answer env sc ctx .WrapD k keys data [x]) := by
  have hcode (verify : Bool) : (combine answer env sc ctx .WrapD k keys data [x]).script verify =
      [OP_DUP] ++ ([OP_IF] ++ x.script false ++ [OP_ENDIF]) := rfl
  refine Sound.of_plain rfl (fun h => ?_) (fun h => ?_) (fun h => ?_) (fun h => ?_) (fun h => ?_)
  case refine_1 =>
    rw [typ_of_has (by decide) h]
    simp [compute_type]
  case refine_2 =>
    have htyp := typ_of_has (by decide) h
    rw [htyp] at h
    have hxV : x.typ.has .V = true ∧ x.typ.has .z = true := by simpa [compute_type] using h
    rw [hcode]
    refine (codes_dup.andThen (Codes.ifEndif (h := fun s t => ∃ v r, s = v :: r ∧
      (env.sigversion = .Tapscript → not_minimal_if v = false) ∧ t = r ∧ (cast_to_bool v = true → x.sat)) (Or.inl rfl)
      (hx.v hxV.1) ?_)).weaken ?_
    · rintro v r t hmin ht
      refine ⟨v, r, rfl, hmin, ?_⟩
      rw [show (OP_IF == OP_NOTIF) = false from rfl, Bool.bne_false] at ht
      cases hv : cast_to_bool v with
      | true =>
        rw [hv, if_pos rfl] at ht
        obtain ⟨n, htakes, hsat⟩ := ht
        refine ⟨?_, fun _ => hsat⟩
        rw [htakes.eq, htakes.z hxV.2, List.drop_zero]
      | false =>
        rw [hv, if_neg (by decide)] at ht
        exact ⟨ht, by simp⟩
    · rintro s t ⟨_, ⟨v, r, rfl, rfl⟩, v', r', hs, hmin, rfl, hsat⟩
      cases hs
      refine ⟨1, r, v, ⟨by simp, rfl, ?_, fun _ => rfl⟩, ⟨hsat, fun hu hv => eq_one_of_minimal (hmin (hctx ?_)) hv⟩,
        rfl⟩
      · rw [htyp]
        simp [compute_type]
      · rw [htyp] at hu
        simpa [compute_type] using hu
  all_goals
    rw [typ_of_has (by decide) h] at h
    simp [compute_type] at h

theorem sound_wrap_j (hx : Sound answer env x) :
    Sound answer env (combine answer env sc ctx .WrapJ k keys data [x]) := by
  have hcode (verify : Bool) : (combine answer env sc ctx .WrapJ k keys data [x]).script verify =
      [OP_SIZE] ++ [OP_0NOTEQUAL] ++ ([OP_IF] ++ x.script false ++ [OP_ENDIF]) := rfl
  refine Sound.of_plain rfl (fun h => ?_) (fun h => ?_) (fun h => ?_) (fun h => ?_) (fun h => ?_)
  case refine_1 =>
    rw [typ_of_has (by decide) h]
    simp [compute_type]
  case refine_2 =>
    have htyp := typ_of_has (by decide) h
    rw [htyp] at h
    have hxB : x.typ.has .B = true ∧ x.typ.has .n = true := by simpa [compute_type] using h
    rw [hcode]
    refine ((codes_size.andThen codes_0notequal).andThen (Codes.ifEndif (h := fun s t => ∃ v r, s = v :: r ∧
      if cast_to_bool v then ShapeB x.typ x.sat r t else t = r) (Or.inl rfl) (hx.b hxB.1) ?_)).weaken ?_
    · rintro v r t - ht
      rw [show (OP_IF == OP_NOTIF) = false from rfl, Bool.bne_false] at ht
      exact ⟨v, r, rfl, ht⟩
    · rintro s t ⟨_, ⟨_, ⟨v, r, rfl, rfl⟩, w, r', m, hs, hm, rfl⟩, b, r₂, hs', ht⟩
      simp only [List.cons.injEq] at hs hs'
      obtain ⟨rfl, rfl⟩ := hs
      obtain ⟨rfl, rfl⟩ := hs'
      rw [cast_bool_element, number_encode hm] at ht
      split at ht
      · refine ShapeB.after (n := 0) ht (Nat.zero_le _) ?_ ?_ ?_ id
        · rw [htyp]
          simp [compute_type]
        · intro m ho _ hm
          rw [htyp] at ho
          rw [hm (by simpa [compute_type] using ho)]
        · rw [htyp]
          simp [compute_type]
      · next hz =>
        have hv : v = [] := by simpa using hz
        subst hv ht
        refine ⟨1, r, [], ⟨by simp, rfl, ?_, fun _ => rfl⟩, ⟨by simp [cast_to_bool], by simp [cast_to_bool]⟩, rfl⟩
        rw [htyp]
        simp [compute_type]
  all_goals
    rw [typ_of_has (by decide) h] at h
    simp [compute_type] at h

end AvilaNode.Miniscript
