import AvilaNode.MiniscriptWraps

/-! The fragments of two and three subexpressions. -/

namespace AvilaNode.Miniscript

open Interpreter OraclePrograms Effect

variable [Digests] {answer : (q : Query) → Answer q} {env : Env} {sc : ScriptCtx} {ctx : MsContext} {k : ℕ}
  {keys : List ℕ} {data : List UInt8} {x y z : Part}

omit [Digests] in
theorem Takes.one {t t' : MsType} {n m : ℕ} {s rest : List Element} (h : Takes t n s rest)
    (ho : (t.has .z = true ∨ t'.has .z = true) ∧ (t.has .o = true ∨ t'.has .o = true))
    (hz' : t'.has .z = true → m = 0) (ho' : t'.has .o = true → m = 1) : n + m = 1 := by
  have := h.z
  have := h.o
  grind

theorem sound_and_v (hx : Sound answer env x) (hy : Sound answer env y) :
    Sound answer env (combine answer env sc ctx .AndV k keys data [x, y]) := by
  set c := combine answer env sc ctx .AndV k keys data [x, y]
  have htype {p : Property} (h : c.typ.has p = true) :
      c.typ = compute_type .AndV x.typ y.typ .empty [] k 2 ctx := typ_of_has (by decide) h
  have hcode (verify : Bool) : c.script verify = x.script false ++ y.script verify := rfl
  have hxV {p : Property} (hp : p = .B ∨ p = .V ∨ p = .K) (h : c.typ.has p = true) :
      x.typ.has .V = true ∧ y.typ.has p = true := by
    rw [htype h] at h
    rcases hp with rfl | rfl | rfl <;> simpa [compute_type, both_timelocks] using h
  have hz (h : c.typ.has .z = true) : x.typ.has .z = true ∧ y.typ.has .z = true := by
    rw [htype h] at h
    simpa [compute_type, both_timelocks] using h
  have ho (h : c.typ.has .o = true) :
      (x.typ.has .z = true ∨ y.typ.has .z = true) ∧ (x.typ.has .o = true ∨ y.typ.has .o = true) := by
    rw [htype h] at h
    simpa [compute_type, both_timelocks] using h
  have hux {p : Property} (h : c.typ.has p = true) :
      (c.typ.has .u = true → y.typ.has .u = true) ∧ c.typ.has .x = y.typ.has .x := by
    rw [htype h]
    simp [compute_type, both_timelocks]
  refine ⟨fun h => ?_, fun h => ?_, fun h => ?_, fun h => ?_, fun h hxx => ?_, fun h hxx => ?_⟩
  · obtain ⟨hV, hB⟩ := hxV (Or.inl rfl) h
    refine ((hx.v hV).andThen (hy.b hB)).weaken ?_
    rintro s t ⟨_, ⟨n, ht, hsat⟩, hshape⟩
    rw [ht.eq] at hshape
    refine hshape.after ht.le (fun h' => ⟨ht.z (hz h').1, (hz h').2⟩) (fun m h' => ht.one (ho h')) (hux h).1
      fun h' => ⟨hsat, h'⟩
  · obtain ⟨hV, hV'⟩ := hxV (Or.inr (Or.inl rfl)) h
    refine ((hx.v hV).andThen (hy.v hV')).weaken ?_
    rintro s t ⟨_, ⟨n, ht, hsat⟩, hshape⟩
    rw [ht.eq] at hshape
    refine hshape.after ht.le (fun h' => ⟨ht.z (hz h').1, (hz h').2⟩) (fun m h' => ht.one (ho h'))
      fun h' => ⟨hsat, h'⟩
  · obtain ⟨hV, hK⟩ := hxV (Or.inr (Or.inr rfl)) h
    refine ((hx.v hV).andThen (hy.k hK)).weaken ?_
    rintro s t ⟨_, ⟨n, ht, hsat⟩, hshape⟩
    rw [ht.eq] at hshape
    refine hshape.after ht.le (fun h' => (hz h').2) (fun h' hyz => ?_) fun h' => ⟨hsat, h'⟩
    have := ho h'
    have := ht.z
    have := ht.o
    grind
  · rw [htype h] at h
    simp [compute_type, both_timelocks] at h
  · rw [(hux h).2] at hxx
    rw [hcode, hcode, hy.same (hxV (Or.inl rfl) h).2 hxx]
  · rw [(hux h).2] at hxx
    obtain ⟨hV, hB⟩ := hxV (Or.inl rfl) h
    rw [hcode]
    refine ((hx.v hV).andThen (hy.fused hB hxx)).weaken ?_
    rintro s t ⟨_, ⟨n, ht, hsat⟩, hshape⟩
    rw [ht.eq] at hshape
    refine hshape.after ht.le (fun h' => ⟨ht.z (hz h').1, (hz h').2⟩) (fun m h' => ht.one (ho h'))
      fun h' => ⟨hsat, h'⟩

omit [Digests] in
theorem cast_of_number {v : Element} {n : ℤ} (hn : IsNumber v n) (h : n ≠ 0) : cast_to_bool v = true := by
  obtain ⟨minimal, hn⟩ := hn
  by_contra hf
  exact h (script_num_of_false (by decide) (by simpa using hf) hn)

theorem sound_join {opcode : UInt8} {verdict : ℤ → ℤ → Bool} {p : Part} (hsame : p.script true = p.script false)
    (hcode : p.script false = x.script false ++ y.script false ++ [opcode])
    (hop : Codes answer env [opcode] (on_stack fun s t => ∃ v w r n k, s = v :: w :: r ∧ IsNumber w n ∧ IsNumber v k ∧
      t = bool_element (verdict n k) :: r))
    (hV : p.typ.has .V = false) (hK : p.typ.has .K = false) (hW : p.typ.has .W = false)
    (h : p.typ.has .B = true → p.typ.has .x = true ∧ x.typ.has .B = true ∧ y.typ.has .W = true ∧
      (p.typ.has .z = true → x.typ.has .z = true ∧ y.typ.has .z = true) ∧
      (p.typ.has .o = true → (x.typ.has .z = true ∨ y.typ.has .z = true) ∧
        (x.typ.has .o = true ∨ y.typ.has .o = true)))
    (hsat : ∀ n k, verdict n k = true → (n ≠ 0 → x.sat) → (k ≠ 0 → y.sat) → p.sat)
    (hsat' : ∀ n k, verdict n k = true → (n ≠ 0 → y.sat) → (k ≠ 0 → x.sat) → p.sat)
    (hx : Sound answer env x) (hy : Sound answer env y) : Sound answer env p := by
  refine Sound.of_plain hsame (fun hB => (h hB).1) (fun hB => ?_) (by simp [hV]) (by simp [hK]) (by simp [hW])
  obtain ⟨-, hxB, hyW, hz, ho⟩ := h hB
  rw [hcode]
  refine (((hx.b hxB).andThen (hy.w hyW)).andThen hop).weaken ?_
  rintro s t ⟨_, ⟨_, ⟨n, rest, r, ht, hr, rfl⟩, top, below, m, rest', r', hs, ht', hr', hor⟩, v, w, r₂, i, j, hs',
    hi, hj,
    rfl⟩
  cases hs
  have htakes : Takes p.typ (n + m) s rest' := by
    rw [ht.eq] at ht'
    exact ht'.after ht.le (fun h' => ⟨ht.z (hz h').1, (hz h').2⟩) fun h' => ht.one (ho h')
  rcases hor with rfl | rfl
  · cases hs'
    exact ⟨n + m, rest', _, htakes, .of_bool fun hv => hsat' i j hv (fun hi' => hr'.sat (cast_of_number hi hi'))
      fun hj' => hr.sat (cast_of_number hj hj'), rfl⟩
  · cases hs'
    exact ⟨n + m, rest', _, htakes, .of_bool fun hv => hsat i j hv (fun hi' => hr.sat (cast_of_number hi hi'))
      fun hj' => hr'.sat (cast_of_number hj hj'), rfl⟩

section

variable (hx : Sound answer env x)
include hx

theorem sound_and_b (hy : Sound answer env y) :
    Sound answer env (combine answer env sc ctx .AndB k keys data [x, y]) := by
  refine sound_join rfl rfl codes_booland (typ_lacks (by decide) (by simp [compute_type, both_timelocks]))
    (typ_lacks (by decide) (by simp [compute_type, both_timelocks]))
    (typ_lacks (by decide) (by simp [compute_type, both_timelocks])) (fun h => ?_) (fun n j h hn hj => ?_)
    (fun n j h hn hj => ?_) hx hy
  · have htyp := typ_of_has (by decide) h
    rw [htyp] at h ⊢
    simp [compute_type, both_timelocks] at h ⊢
    grind
  · simp only [Bool.and_eq_true, bne_iff_ne] at h
    exact ⟨hn h.1, hj h.2⟩
  · simp only [Bool.and_eq_true, bne_iff_ne] at h
    exact ⟨hj h.2, hn h.1⟩

theorem sound_or_b (hy : Sound answer env y) :
    Sound answer env (combine answer env sc ctx .OrB k keys data [x, y]) := by
  refine sound_join rfl rfl codes_boolor (typ_lacks (by decide) (by simp [compute_type, either_timelocks]))
    (typ_lacks (by decide) (by simp [compute_type, either_timelocks]))
    (typ_lacks (by decide) (by simp [compute_type, either_timelocks])) (fun h => ?_) (fun n j h hn hj => ?_)
    (fun n j h hn hj => ?_) hx hy
  · have htyp := typ_of_has (by decide) h
    rw [htyp] at h ⊢
    simp [compute_type, either_timelocks] at h ⊢
    grind
  · simp only [Bool.or_eq_true, bne_iff_ne] at h
    exact h.imp hn hj
  · simp only [Bool.or_eq_true, bne_iff_ne] at h
    exact h.symm.imp hj hn

theorem sound_or_c (hy : Sound answer env y) :
    Sound answer env (combine answer env sc ctx .OrC k keys data [x, y]) := by
  set c := combine answer env sc ctx .OrC k keys data [x, y]
  have htype {p : Property} (h : c.typ.has p = true) :
      c.typ = compute_type .OrC x.typ y.typ .empty [] k 2 ctx := typ_of_has (by decide) h
  have hcode (verify : Bool) : c.script verify = x.script false ++ ([OP_NOTIF] ++ y.script false ++ [OP_ENDIF]) := by
    change x.script false ++ [OP_NOTIF] ++ y.script false ++ [OP_ENDIF] = _
    simp only [List.append_assoc]
  refine Sound.of_plain ((hcode true).trans (hcode false).symm) (fun h => ?_) (fun h => ?_) (fun h => ?_)
    (fun h => ?_)
    (fun h => ?_)
  case refine_3 =>
    have htyp := htype h
    have hty : x.typ.has .B = true ∧ y.typ.has .V = true := by
      rw [htyp] at h
      simp [compute_type, either_timelocks] at h
      grind
    have hz : c.typ.has .z = true → x.typ.has .z = true ∧ y.typ.has .z = true := by
      rw [htyp]
      simp [compute_type, either_timelocks]
    have ho : c.typ.has .o = true → x.typ.has .o = true ∧ y.typ.has .z = true := by
      rw [htyp]
      simp [compute_type, either_timelocks]
      exact fun hz ho => ⟨ho, hz⟩
    rw [hcode]
    refine ((hx.b hty.1).andThen (Codes.ifEndif (h := fun s t => ∃ v r, s = v :: r ∧
      if cast_to_bool v then t = r else ShapeV y.typ y.sat r t) (Or.inr rfl) (hy.v hty.2) ?_)).weaken ?_
    · rintro v r t - ht
      refine ⟨v, r, rfl, ?_⟩
      cases hv : cast_to_bool v <;> simpa [hv] using ht
    · rintro s t ⟨_, ⟨n, rest, r, ht, hr, rfl⟩, v, r', hs, hv⟩
      cases hs
      split at hv
      · next hc =>
        subst hv
        exact ⟨n, ⟨ht.le, ht.eq, fun h => ht.z (hz h).1, fun h => ht.o (ho h).1⟩, Or.inl (hr.sat hc)⟩
      · rw [ht.eq] at hv
        refine hv.after ht.le (fun h => ⟨ht.z (hz h).1, (hz h).2⟩) (fun m h' => ht.one ?_) Or.inr
        exact ⟨Or.inr (ho h').2, Or.inl (ho h').1⟩
  all_goals
    rw [htype h] at h
    simp [compute_type, either_timelocks] at h

theorem sound_or_d (hy : Sound answer env y) :
    Sound answer env (combine answer env sc ctx .OrD k keys data [x, y]) := by
  set c := combine answer env sc ctx .OrD k keys data [x, y]
  have htype {p : Property} (h : c.typ.has p = true) :
      c.typ = compute_type .OrD x.typ y.typ .empty [] k 2 ctx := typ_of_has (by decide) h
  have hcode (verify : Bool) : c.script verify =
      x.script false ++ [OP_IFDUP] ++ ([OP_NOTIF] ++ y.script false ++ [OP_ENDIF]) := by
    change x.script false ++ ([OP_IFDUP] ++ [OP_NOTIF]) ++ y.script false ++ [OP_ENDIF] = _
    simp only [List.append_assoc]
  refine Sound.of_plain ((hcode true).trans (hcode false).symm) (fun h => ?_) (fun h => ?_) (fun h => ?_)
    (fun h => ?_)
    (fun h => ?_)
  case refine_1 =>
    rw [htype h]
    simp [compute_type, either_timelocks]
  case refine_2 =>
    have htyp := htype h
    have hty : (x.typ.has .B = true ∧ x.typ.has .u = true) ∧ y.typ.has .B = true := by
      rw [htyp] at h
      simp [compute_type, either_timelocks] at h
      grind
    have hz : c.typ.has .z = true → x.typ.has .z = true ∧ y.typ.has .z = true := by
      rw [htyp]
      simp [compute_type, either_timelocks]
    have ho : c.typ.has .o = true → x.typ.has .o = true ∧ y.typ.has .z = true := by
      rw [htyp]
      simp [compute_type, either_timelocks]
      exact fun hz ho => ⟨ho, hz⟩
    have hu : c.typ.has .u = true → y.typ.has .u = true := by
      rw [htyp]
      simp [compute_type, either_timelocks]
    rw [hcode]
    refine (((hx.b hty.1.1).andThen codes_ifdup).andThen (Codes.ifEndif (h := fun s t => ∃ v r, s = v :: r ∧
      if cast_to_bool v then t = r else ShapeB y.typ y.sat r t) (Or.inr rfl) (hy.b hty.2) ?_)).weaken ?_
    · rintro v r t - ht
      refine ⟨v, r, rfl, ?_⟩
      cases hv : cast_to_bool v <;> simpa [hv] using ht
    · rintro s t ⟨_, ⟨_, ⟨n, rest, r, ht, hr, rfl⟩, w, r₁, hs, rfl⟩, v, r', hs', hv⟩
      cases hs
      cases hc : cast_to_bool r with
      | true =>
        simp only [hc, if_true, List.cons.injEq] at hs'
        obtain ⟨rfl, rfl⟩ := hs'
        rw [hc, if_pos rfl] at hv
        exact ⟨n, rest, r, ⟨ht.le, ht.eq, fun h => ht.z (hz h).1, fun h => ht.o (ho h).1⟩,
          hr.mono (fun _ => hty.1.2) Or.inl, hv⟩
      | false =>
        simp only [hc, Bool.false_eq_true, if_false, List.cons.injEq] at hs'
        obtain ⟨rfl, rfl⟩ := hs'
        rw [hc, if_neg (by decide), ht.eq] at hv
        refine hv.after ht.le (fun h => ⟨ht.z (hz h).1, (hz h).2⟩) (fun m h' => ht.one ?_) hu Or.inr
        exact ⟨Or.inr (ho h').2, Or.inl (ho h').1⟩
  all_goals
    rw [htype h] at h
    simp [compute_type, either_timelocks] at h

theorem sound_or_i (hy : Sound answer env y) :
    Sound answer env (combine answer env sc ctx .OrI k keys data [x, y]) := by
  set c := combine answer env sc ctx .OrI k keys data [x, y]
  have htype {p : Property} (h : c.typ.has p = true) :
      c.typ = compute_type .OrI x.typ y.typ .empty [] k 2 ctx := typ_of_has (by decide) h
  have hbase {p : Property} (hp : p = .B ∨ p = .V ∨ p = .K) (h : c.typ.has p = true) :
      x.typ.has p = true ∧ y.typ.has p = true := by
    rw [htype h] at h
    rcases hp with rfl | rfl | rfl <;> simpa [compute_type, either_timelocks] using h
  have hz {p : Property} (h : c.typ.has p = true) : c.typ.has .z = false := by
    rw [htype h]
    simp [compute_type, either_timelocks]
  have ho (h : c.typ.has .o = true) : x.typ.has .z = true ∧ y.typ.has .z = true := by
    rw [htype h] at h
    simpa [compute_type, either_timelocks] using h
  have hu (h : c.typ.has .u = true) : x.typ.has .u = true ∧ y.typ.has .u = true := by
    rw [htype h] at h
    simpa [compute_type, either_timelocks] using h
  refine Sound.of_plain rfl (fun h => ?_) (fun h => ?_) (fun h => ?_) (fun h => ?_) (fun h => ?_)
  · rw [htype h]
    simp [compute_type, either_timelocks]
  · obtain ⟨hxB, hyB⟩ := hbase (Or.inl rfl) h
    have hz := hz h
    refine Codes.ifElse (Or.inl rfl) (hx.b hxB) (hy.b hyB) ?_
    rintro v r t - ht
    split at ht
    · exact ShapeB.after (n := 1) ht (by simp) (by simp [hz]) (fun m h' hm _ => by rw [hm (ho h').1])
        (fun h' => (hu h').1) Or.inl
    · exact ShapeB.after (n := 1) ht (by simp) (by simp [hz]) (fun m h' hm _ => by rw [hm (ho h').2])
        (fun h' => (hu h').2) Or.inr
  · obtain ⟨hxV, hyV⟩ := hbase (Or.inr (Or.inl rfl)) h
    have hz := hz h
    refine Codes.ifElse (Or.inl rfl) (hx.v hxV) (hy.v hyV) ?_
    rintro v r t - ht
    split at ht
    · exact ShapeV.after (n := 1) ht (by simp) (by simp [hz]) (fun m h' hm _ => by rw [hm (ho h').1]) Or.inl
    · exact ShapeV.after (n := 1) ht (by simp) (by simp [hz]) (fun m h' hm _ => by rw [hm (ho h').2]) Or.inr
  · obtain ⟨hxK, hyK⟩ := hbase (Or.inr (Or.inr rfl)) h
    have hz := hz h
    refine Codes.ifElse (Or.inl rfl) (hx.k hxK) (hy.k hyK) ?_
    rintro v r t - ht
    split at ht
    · exact ShapeK.after (n := 1) ht (by simp) (by simp [hz])
        (fun h' hx' => absurd (ho h').1 (by simp [hx'])) Or.inl
    · exact ShapeK.after (n := 1) ht (by simp) (by simp [hz])
        (fun h' hy' => absurd (ho h').2 (by simp [hy'])) Or.inr
  · rw [htype h] at h
    simp [compute_type, either_timelocks] at h

theorem sound_and_or (hy : Sound answer env y) (hz : Sound answer env z) :
    Sound answer env (combine answer env sc ctx .AndOr k keys data [x, y, z]) := by
  set c := combine answer env sc ctx .AndOr k keys data [x, y, z]
  have htype {p : Property} (h : c.typ.has p = true) :
      c.typ = compute_type .AndOr x.typ y.typ z.typ [] k 3 ctx := typ_of_has (by decide) h
  have hcode (verify : Bool) : c.script verify =
      x.script false ++ ([OP_NOTIF] ++ z.script false ++ [OP_ELSE] ++ y.script false ++ [OP_ENDIF]) := by
    change x.script false ++ [OP_NOTIF] ++ z.script false ++ [OP_ELSE] ++ y.script false ++ [OP_ENDIF] = _
    simp only [List.append_assoc]
  have hbase {p : Property} (hp : p = .B ∨ p = .V ∨ p = .K) (h : c.typ.has p = true) :
      x.typ.has .B = true ∧ y.typ.has p = true ∧ z.typ.has p = true := by
    rw [htype h] at h
    rcases hp with rfl | rfl | rfl <;> simp [compute_type] at h <;> exact ⟨h.1.1, h.2⟩
  have hzero (hz : c.typ.has .z = true) : (x.typ.has .z = true ∧ y.typ.has .z = true) ∧ z.typ.has .z = true := by
    rw [htype hz] at hz
    simpa [compute_type] using hz
  have ho (h : c.typ.has .o = true) : (x.typ.has .z = true ∨ y.typ.has .z = true ∧ z.typ.has .z = true) ∧
        (x.typ.has .o = true ∨ y.typ.has .o = true ∧ z.typ.has .o = true) := by
    rw [htype h] at h
    simpa [compute_type] using h
  have hu (h : c.typ.has .u = true) : y.typ.has .u = true ∧ z.typ.has .u = true := by
    rw [htype h] at h
    simpa [compute_type] using h
  have hoy (h' : c.typ.has .o = true) :
      (x.typ.has .z = true ∨ y.typ.has .z = true) ∧ (x.typ.has .o = true ∨ y.typ.has .o = true) :=
    ⟨(ho h').1.imp_right And.left, (ho h').2.imp_right And.left⟩
  have hoz (h' : c.typ.has .o = true) :
      (x.typ.has .z = true ∨ z.typ.has .z = true) ∧ (x.typ.has .o = true ∨ z.typ.has .o = true) :=
    ⟨(ho h').1.imp_right And.right, (ho h').2.imp_right And.right⟩
  have hchoice {f g : List Element → List Element → Prop} (hf : Codes answer env (z.script false) (on_stack f))
      (hg : Codes answer env (y.script false) (on_stack g)) :
      Codes answer env ([OP_NOTIF] ++ z.script false ++ [OP_ELSE] ++ y.script false ++ [OP_ENDIF])
        (on_stack fun s t => ∃ v r, s = v :: r ∧ if cast_to_bool v then g r t else f r t) := by
    refine Codes.ifElse (Or.inr rfl) hf hg ?_
    rintro v r t - ht
    refine ⟨v, r, rfl, ?_⟩
    cases hv : cast_to_bool v <;> simpa [hv] using ht
  refine Sound.of_plain ((hcode true).trans (hcode false).symm) (fun h => ?_) (fun h => ?_) (fun h => ?_)
    (fun h => ?_)
    (fun h => ?_)
  · rw [htype h]
    simp [compute_type]
  · obtain ⟨hxB, hyB, hzB⟩ := hbase (Or.inl rfl) h
    rw [hcode]
    refine ((hx.b hxB).andThen (hchoice (hz.b hzB) (hy.b hyB))).weaken ?_
    rintro s t ⟨_, ⟨n, rest, r, ht, hr, rfl⟩, v, r', hs, hv⟩
    cases hs
    rw [ht.eq] at hv
    split at hv
    · next hc =>
      exact hv.after ht.le (fun h' => ⟨ht.z (hzero h').1.1, (hzero h').1.2⟩) (fun m h' => ht.one (hoy h'))
        (fun h' => (hu h').1) fun h' => Or.inl ⟨hr.sat hc, h'⟩
    · exact hv.after ht.le (fun h' => ⟨ht.z (hzero h').1.1, (hzero h').2⟩) (fun m h' => ht.one (hoz h'))
        (fun h' => (hu h').2) Or.inr
  · obtain ⟨hxB, hyV, hzV⟩ := hbase (Or.inr (Or.inl rfl)) h
    rw [hcode]
    refine ((hx.b hxB).andThen (hchoice (hz.v hzV) (hy.v hyV))).weaken ?_
    rintro s t ⟨_, ⟨n, rest, r, ht, hr, rfl⟩, v, r', hs, hv⟩
    cases hs
    rw [ht.eq] at hv
    split at hv
    · next hc =>
      exact hv.after ht.le (fun h' => ⟨ht.z (hzero h').1.1, (hzero h').1.2⟩) (fun m h' => ht.one (hoy h'))
        fun h' => Or.inl ⟨hr.sat hc, h'⟩
    · exact hv.after ht.le (fun h' => ⟨ht.z (hzero h').1.1, (hzero h').2⟩) (fun m h' => ht.one (hoz h')) Or.inr
  · obtain ⟨hxB, hyK, hzK⟩ := hbase (Or.inr (Or.inr rfl)) h
    rw [hcode]
    refine ((hx.b hxB).andThen (hchoice (hz.k hzK) (hy.k hyK))).weaken ?_
    rintro s t ⟨_, ⟨n, rest, r, ht, hr, rfl⟩, v, r', hs, hv⟩
    cases hs
    rw [ht.eq] at hv
    have hone := ht.o
    split at hv
    · next hc =>
      refine hv.after ht.le (fun h' => (hzero h').1.2) (fun h' hyz => ?_) fun h' => Or.inl ⟨hr.sat hc, h'⟩
      have hno : ¬y.typ.has .z = true := by simp [hyz]
      have hx0 := ht.z ((hoy h').1.resolve_right hno)
      exact ⟨hx0, (hoy h').2.resolve_left fun hx1 => by rw [hone hx1] at hx0; cases hx0⟩
    · refine hv.after ht.le (fun h' => (hzero h').2) (fun h' hzz => ?_) Or.inr
      have hno : ¬z.typ.has .z = true := by simp [hzz]
      have hx0 := ht.z ((hoz h').1.resolve_right hno)
      exact ⟨hx0, (hoz h').2.resolve_left fun hx1 => by rw [hone hx1] at hx0; cases hx0⟩
  · rw [htype h] at h
    simp [compute_type] at h

end

end AvilaNode.Miniscript
