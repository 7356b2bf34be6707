import AvilaNode.MiniscriptWraps

/-! The fragments of several keys. -/

variable {n : ℕ}

namespace AvilaNode.Miniscript

open Interpreter OraclePrograms Effect

variable [Digests] {answer : (q : Query) → Answer q} {env : Env} {sc : ScriptCtx} {ctx : MsContext} {k : ℕ}
  {keys : List ℕ} {data : List UInt8}

theorem codes_pushes (keys : List ℕ) : Codes answer env (keys.flatMap fun key => push_slice (sc.to_pk_bytes key))
    (on_stack fun s t => t = (keys.map sc.to_pk_bytes).reverse ++ s) := by
  induction keys with
  | nil => exact Codes.nil
  | cons key keys ih =>
    refine ((codes_push (sc.pk_fits key)).andThen ih).weaken ?_
    rintro s t ⟨_, rfl, rfl⟩
    simp

omit [Digests] in
theorem getint_nat (h : n < 2147483648) : (getint n).toNat = n := by
  unfold getint
  omega

theorem sound_multi (hv : env.sigversion = .WitnessV0 ∨ env.sigversion = .Tapscript) (hk : k ≤ keys.length)
    (hkeys : keys.length ≤ 20) : Sound answer env (combine answer env sc ctx .Multi k keys data []) := by
  have htyp : (combine answer env sc ctx .Multi k keys data []).typ = _ := typ_leaf (Or.inl (by simp [compute_type]))
  refine Sound.of_verdict ?_ ?_ ?_ ?_ fun _ verify => ?_
  case refine_5 =>
    refine ((((codes_build_num (by omega)).andThen (codes_pushes keys)).andThen (codes_build_num (by omega))).andThen
      (codes_checkmultisig hv verify)).weaken ?_
    rintro s t ⟨_, ⟨_, ⟨_, rfl, rfl⟩, rfl⟩, vn, vk, n, m, ok, hvn, hn, hvk, hm, hlen, hsigned, hleaves⟩
    obtain rfl := Option.some.inj hvn
    obtain rfl := number_encode hn
    rw [getint_nat (by omega)] at hvk hlen hsigned hleaves
    rw [List.getElem?_cons_succ, List.getElem?_append_right (by simp)] at hvk
    simp only [List.length_reverse, List.length_map, Nat.sub_self, List.getElem?_cons_zero, Option.some.injEq] at hvk
    subst hvk
    obtain rfl := number_encode hm
    rw [getint_nat (by omega)] at hlen hsigned hleaves
    have hdrop : (Interpreter.encode_script_num keys.length :: ((keys.map sc.to_pk_bytes).reverse ++
        Interpreter.encode_script_num k :: s)).drop (keys.length + k + 3) = s.drop (k + 1) := by
      rw [show keys.length + k + 3 = (keys.length + (k + 1 + 1)) + 1 by omega, List.drop_succ_cons, ← List.drop_drop,
        List.drop_left' (by simp), List.drop_succ_cons]
    rw [hdrop] at hleaves
    refine ⟨k + 1, s.drop (k + 1), ok, ⟨?_, rfl, ?_, ?_⟩, fun hok => ?_, hleaves⟩
    · simp only [List.length_cons, List.length_append, List.length_reverse, List.length_map] at hlen
      omega
    · rw [htyp]
      simp [compute_type]
    · rw [htyp]
      simp [compute_type]
    · obtain ⟨chosen, hsub, hcount, hall⟩ := hsigned hok
      rw [List.drop_succ_cons, List.drop_zero, List.take_left' (by simp)] at hsub
      refine ⟨chosen.reverse, by simpa using hsub.reverse, by simpa using hcount, ?_⟩
      simpa using hall
  all_goals
    rw [htyp]
    simp [compute_type]

theorem codes_checksigadds (hb : env.sigversion ≠ .Base) (keys : List ℕ) :
    Codes answer env (keys.flatMap fun key => push_slice (sc.to_pk_bytes key) ++ [OP_CHECKSIGADD])
      (on_stack fun s t =>
      ∀ c r, s = Interpreter.encode_script_num (c : ℕ) :: r →
        ∃ chosen : List Element, keys.length ≤ r.length ∧
          t = Interpreter.encode_script_num (c + chosen.length : ℕ) :: r.drop keys.length ∧
          chosen.Sublist (keys.map sc.to_pk_bytes) ∧ ∀ pubkey ∈ chosen, Signed answer env pubkey) := by
  induction keys with
  | nil =>
    refine Codes.nil.weaken ?_
    rintro s t rfl c r rfl
    exact ⟨[], by simp⟩
  | cons key keys ih =>
    refine (((codes_push (sc.pk_fits key)).andThen (codes_checksigadd hb)).andThen ih).weaken ?_
    rintro s t ⟨_, ⟨_, rfl, pubkey, v, sig, r, n, ok, hs, hn, hsigned, rfl⟩, hrest⟩ c r' rfl
    cases hs
    obtain rfl := number_encode hn
    have hsum : (c : ℤ) + of_bool ok = ((c + ok.toNat : ℕ) : ℤ) := by cases ok <;> simp [of_bool]
    obtain ⟨chosen, hlen, rfl, hsub, hall⟩ := hrest _ r (by rw [hsum])
    cases ok with
    | false =>
      refine ⟨chosen, by simpa using hlen, ?_, hsub.cons _, hall⟩
      simp
    | true =>
      refine ⟨sc.to_pk_bytes key :: chosen, by simpa using hlen, ?_, hsub.cons_cons _, ?_⟩
      · simp [Nat.add_assoc, Nat.add_comm 1]
      · simpa using ⟨⟨sig, hsigned rfl⟩, hall⟩

theorem sound_multi_a (hb : env.sigversion ≠ .Base) (hk : k ≤ keys.length) (hpos : 1 ≤ k)
    (hkeys : keys.length ≤ 999) :
    Sound answer env (combine answer env sc ctx .MultiA k keys data []) := by
  have htyp : (combine answer env sc ctx .MultiA k keys data []).typ = _ := typ_leaf (Or.inl (by simp [compute_type]))
  obtain _ | ⟨key, keys⟩ := keys
  · simp at hk
    omega
  rw [List.length_cons] at hk hkeys
  have hcode (verify : Bool) : (combine answer env sc ctx .MultiA k (key :: keys) data []).script verify =
      push_slice (sc.to_pk_bytes key) ++ [OP_CHECKSIG]
        ++ keys.flatMap (fun key => push_slice (sc.to_pk_bytes key) ++ [OP_CHECKSIGADD]) ++ build_num k
        ++ [if verify then OP_NUMEQUALVERIFY else OP_NUMEQUAL] := rfl
  refine Sound.of_verdict ?_ ?_ ?_ ?_ fun _ verify => ?_
  case refine_5 =>
    rw [hcode]
    refine (((((codes_push (sc.pk_fits key)).andThen (codes_checksig hb false)).andThen
      (codes_checksigadds hb keys)).andThen (codes_build_num (by omega))).andThen (codes_numequal verify)).weaken ?_
    rintro s t ⟨_, ⟨_, ⟨_, ⟨_, rfl, pubkey, sig, r, ok, hs, hsigned, rfl⟩, hrest⟩, rfl⟩, v, w, r', n, m, hs', hn,
      hm, ht⟩
    cases hs
    obtain ⟨chosen, hlen, rfl, hsub, hall⟩ := hrest ok.toNat r (by cases ok <;> rfl)
    cases hs'
    obtain rfl := number_encode hn
    obtain rfl := number_encode hm
    refine ⟨keys.length + 1, r.drop keys.length, _, ⟨by simpa using hlen, rfl, ?_, ?_⟩, fun heq => ?_, ht⟩
    · rw [htyp]
      simp [compute_type]
    · rw [htyp]
      simp [compute_type]
    · have hk' : ok.toNat + chosen.length = k := by exact_mod_cast eq_of_beq heq
      cases ok with
      | false => exact ⟨chosen, hsub.cons _, by simpa using hk', hall⟩
      | true =>
        refine ⟨sc.to_pk_bytes key :: chosen, hsub.cons_cons _, ?_, ?_⟩
        · rw [List.length_cons]
          simp at hk'
          omega
        · simpa using ⟨⟨sig, hsigned rfl⟩, hall⟩
  all_goals
    rw [htyp]
    simp [compute_type]

end AvilaNode.Miniscript

namespace AvilaNode.Miniscript

open Interpreter OraclePrograms Effect

variable {acc acc' : Tally} {parts : List Part} {i : ℕ}

section Counting

variable {k : ℕ}

variable {ts : List MsType} {v : Element}

theorem tally_cons {t : MsType} (h : tally k i acc (t :: ts) = some acc') :
    t.has_all (if i = 0 then mst [.B, .d, .u] else mst [.W, .d, .u]) = true ∧
      tally k (i + 1) (tally_sub k acc t) ts = some acc' := by
  simp only [tally, Bool.not_eq_true', Bool.eq_false_iff] at h
  by_cases hn : t.has_all (if i = 0 then mst [.B, .d, .u] else mst [.W, .d, .u]) = true
  · rw [if_neg (not_not_intro hn)] at h
    exact ⟨hn, h⟩
  · rw [if_pos hn] at h
    cases h

theorem tally_tl (h : tally k i acc ts = some acc') {p : Property} (hp : p ∉ [Property.g, .h, .i, .j, .k])
    (hacc : acc.acc_tl.has p = false) : acc'.acc_tl.has p = false := by
  induction ts generalizing i acc with
  | nil =>
    rw [tally, Option.some.injEq] at h
    rwa [← h]
  | cons t ts ih =>
    refine ih (tally_cons h).2 ?_
    simp only [List.mem_cons, List.not_mem_nil, or_false, not_or] at hp
    simp [tally_sub, hp]

theorem tally_of_thresh {p : Property} (h : (thresh_type ts k n).has p = true) :
    ∃ acc, tally k 0 ⟨true, true, 0, 0, mst [.k]⟩ ts = some acc ∧
      ((thresh_type ts k n).has .z = true → acc.args = 0) ∧ ((thresh_type ts k n).has .o = true → acc.args = 1) ∧
      (∀ q ∈ [Property.V, .K, .W, .x], (thresh_type ts k n).has q = false) := by
  unfold thresh_type at h ⊢
  split at h
  · simp at h
  · next acc hacc =>
    have htl (q : Property) (hq : q ∉ [Property.g, .h, .i, .j, .k]) : acc.acc_tl.has q = false :=
      tally_tl hacc hq (by simp at hq; simp [hq])
    refine ⟨acc, hacc, ?_, ?_, ?_⟩
    · simp [htl .z (by decide)]
    · simp [htl .o (by decide)]
    · simp [htl .V (by decide), htl .K (by decide), htl .W (by decide), htl .x (by decide)]

def Counts (v : Element) (c : ℕ) : Prop := v = Interpreter.encode_script_num c ∨ c = 0 ∧ cast_to_bool v = false

variable {c : ℕ} {m : ℤ}

theorem Counts.number (h : Counts v c) (hm : IsNumber v m) : m = c := by
  obtain rfl | ⟨rfl, hv⟩ := h
  · exact number_encode hm
  · obtain ⟨minimal, hm⟩ := hm
    simpa using script_num_of_false (by decide) hv hm

theorem lt_of_number (h : IsNumber (Interpreter.encode_script_num c) m) : c < 256 ^ 4 := by
  have hc := number_encode h
  obtain ⟨minimal, h⟩ := h
  obtain ⟨hlen, -, hm⟩ := (script_num_eq_ok (by decide)).mp h
  have hlt := (sign_magnitude_lt _).trans_le (Nat.pow_le_pow_right (by decide : 0 < 256) hlen)
  rw [← hm, hc] at hlt
  exact hlt

theorem Counts.lt (h : Counts v c) (hm : IsNumber v m) : c < 256 ^ 4 := by
  obtain rfl | ⟨rfl, -⟩ := h
  · exact lt_of_number hm
  · norm_num

theorem wrapping_eq {n : ℤ} (h0 : 0 ≤ n) (h : n < 2 ^ 63) : wrapping n = n := by
  rw [wrapping, BitVec.toInt_ofInt, Int.bmod_eq_of_le] <;> norm_num <;> omega

theorem Result.counts {t : MsType} {sat : Prop} {r : Element} (h : Result t sat r) (hu : t.has .u = true) :
    ∃ chosen : List Prop, Counts r chosen.length ∧ chosen.Sublist [sat] ∧ ∀ p ∈ chosen, p := by
  cases hr : cast_to_bool r with
  | true =>
    refine ⟨[sat], Or.inl ((h.u hu hr).trans (encode_of_bool true).symm), List.Sublist.refl _, fun p hp => ?_⟩
    rw [List.mem_singleton.mp hp]
    exact h.sat hr
  | false => exact ⟨[], Or.inr ⟨rfl, hr⟩, by simp, by simp⟩

theorem Counts.eq (h : Counts v c) (hv : v = Interpreter.encode_script_num n) (hpos : 1 ≤ n) (hn : n < 4294967296) :
    c = n := by
  have hn8 : n < 256 ^ 8 := Nat.lt_of_lt_of_le hn (by norm_num)
  obtain hc | ⟨rfl, hf⟩ := h
  · rw [hv] at hc
    by_cases hc8 : c < 256 ^ 8
    · exact (encode_script_num_inj hn8 hc8 hc).symm
    have hlen := length_encode_of_le (Nat.not_lt.mp hc8)
    rw [← hc] at hlen
    have hbytes : (Interpreter.encode_script_num n).length ≤ 5 := by
      have h4 : le_bytes 8 n = le_bytes 4 n := le_bytes_eq (by norm_num; exact hn) 4
      have hl4 : (le_bytes 4 n).length ≤ 4 := length_le_bytes_le 4 n
      unfold Interpreter.encode_script_num
      rw [if_neg (by omega)]
      simp only [Int.natAbs_natCast, h4, show ¬(n : ℤ) < 0 by omega, if_false]
      split
      · simp only [List.length_append, List.length_singleton]
        omega
      · omega
    omega
  · have hne : (n : ℤ) ≠ 0 := by omega
    rw [hv, Bool.eq_false_iff, ne_eq, cast_to_bool_iff, (sign_magnitude_encode (k := n) hn8).1] at hf
    exact absurd hne hf

end Counting

variable [Digests] {answer : (q : Query) → Answer q} {env : Env} {sc : ScriptCtx} {ctx : MsContext} {k : ℕ}
  {keys : List ℕ} {data : List UInt8}

theorem codes_adds (hparts : ∀ p ∈ parts, Sound answer env p)
    (h : tally k (i + 1) acc (parts.map Part.typ) = some acc') :
    Codes answer env (parts.flatMap fun p => p.script false ++ [OP_ADD]) (on_stack fun s t =>
      ∀ v r c m, s = v :: r → Counts v c → (acc.args = 0 → m = 0) → (acc.args = 1 → m = 1) →
        ∃ (n : ℕ) (v' : Element) (chosen : List Prop), n ≤ r.length ∧ t = v' :: r.drop n ∧
          Counts v' (c + chosen.length) ∧
          chosen.Sublist (parts.map Part.sat) ∧ (∀ p ∈ chosen, p) ∧ (acc'.args = 0 → m + n = 0) ∧
          (acc'.args = 1 → m + n = 1)) := by
  induction parts generalizing i acc with
  | nil =>
    rw [List.map_nil, tally, Option.some.injEq] at h
    subst h
    refine Codes.nil.weaken ?_
    rintro s t rfl v r c m rfl hv h0 h1
    exact ⟨0, v, [], by simp, rfl, hv, by simp, by simp, h0, h1⟩
  | cons p parts ih =>
    obtain ⟨hneed, h⟩ := tally_cons h
    have hp : p.typ.has .W = true ∧ p.typ.has .d = true ∧ p.typ.has .u = true := by simpa using hneed
    have hrest := ih (fun q hq => hparts q (List.mem_cons_of_mem _ hq)) h
    refine (((((hparts p (List.mem_cons_self ..)).w hp.1)).andThen codes_add).andThen hrest).weaken ?_
    rintro s t ⟨_, ⟨_, ⟨top, below, n, rest, res, rfl, ht, hr, hor⟩, a, b, r', i, j, hs, hi, hj, rfl⟩, hmore⟩ v r c m
      hvr hv h0 h1
    cases hvr
    obtain ⟨one, hone, hsub, hall⟩ := hr.counts hp.2.2
    have hle : one.length ≤ 1 := hsub.length_le
    have hsum : r' = rest ∧ i + j = ((c + one.length : ℕ) : ℤ) ∧ c < 256 ^ 4 := by
      rcases hor with rfl | rfl <;> simp only [List.cons.injEq] at hs <;> obtain ⟨rfl, rfl, rfl⟩ := hs
      · rw [hone.number hi, hv.number hj]
        exact ⟨rfl, by push_cast; ring, hv.lt hj⟩
      · rw [hv.number hi, hone.number hj]
        exact ⟨rfl, by push_cast; ring, hv.lt hi⟩
    obtain ⟨rfl, hij, hc⟩ := hsum
    rw [hij, wrapping_eq (by omega) (by norm_num at hc ⊢; omega)] at hmore
    obtain ⟨n', v', chosen, hn', rfl, hcount, hsub', hall', hz, ho⟩ := hmore _ _ (c + one.length) (m + n) rfl
      (Or.inl rfl) (by
        intro hargs
        simp only [tally_sub, MsType.has_all_mst, List.all_cons, List.all_nil, Bool.and_true] at hargs
        have := ht.z
        have := ht.o
        split at hargs <;> [skip; split at hargs] <;> grind)
      (by
        intro hargs
        simp only [tally_sub, MsType.has_all_mst, List.all_cons, List.all_nil, Bool.and_true] at hargs
        have := ht.z
        have := ht.o
        split at hargs <;> [skip; split at hargs] <;> grind)
    rw [ht.eq, List.length_drop] at hn'
    refine ⟨n + n', v', one ++ chosen, by have := ht.le; omega, ?_, ?_, ?_, ?_, ?_, ?_⟩
    · rw [ht.eq, List.drop_drop]
    · rwa [List.length_append, ← Nat.add_assoc]
    · simpa using hsub.append hsub'
    · intro q hq
      exact (List.mem_append.mp hq).elim (hall q) (hall' q)
    · simpa [Nat.add_assoc] using hz
    · simpa [Nat.add_assoc] using ho

theorem sound_thresh (hparts : ∀ p ∈ parts, Sound answer env p) (hpos : 1 ≤ k) (hk : k < 4294967296)
    (hne : k ≤ parts.length) :
    Sound answer env (combine answer env sc ctx .Thresh k keys data parts) := by
  obtain _ | ⟨x, parts⟩ := parts
  · simp at hne
    omega
  have hcode (verify : Bool) : (combine answer env sc ctx .Thresh k keys data (x :: parts)).script verify =
      x.script false ++ parts.flatMap (fun p => p.script false ++ [OP_ADD]) ++ build_num k
        ++ [if verify then OP_EQUALVERIFY else OP_EQUAL] := by
    have hsubs (ps : List Part) (i : ℕ) :
        (ps.zipIdx i).map (fun p => p.1.script (downfn verify .Thresh p.2)) = ps.map fun p => p.script false := by
      induction ps generalizing i with
      | nil => rfl
      | cons p ps ih =>
        rw [List.zipIdx_cons, List.map_cons, ih, List.map_cons]
        rfl
    simp only [combine, hsubs]
    simp [upfn, List.flatMap_map]
  have htyp {p : Property} (h : (combine answer env sc ctx .Thresh k keys data (x :: parts)).typ.has p = true) :
      (combine answer env sc ctx .Thresh k keys data (x :: parts)).typ =
        thresh_type ((x :: parts).map Part.typ) k (parts.length + 1) := by
    simp only [combine, calc_type, if_true, compute_type, List.length_map, List.length_cons] at h ⊢
    exact sanitize_of_has h
  have hno {p : Property} (hp : p ∈ [Property.V, .K, .W, .x]) :
      (combine answer env sc ctx .Thresh k keys data (x :: parts)).typ.has p = false := by
    rw [Bool.eq_false_iff]
    intro h
    have hh := h
    rw [htyp h] at hh
    obtain ⟨acc, -, -, -, hlacks⟩ := tally_of_thresh hh
    rw [hlacks p hp] at hh
    cases hh
  refine Sound.of_verdict (hno (by decide)) (hno (by decide)) (hno (by decide)) (hno (by decide)) fun h verify => ?_
  have ht := htyp h
  rw [ht] at h
  obtain ⟨acc, hacc, hz, ho, -⟩ := tally_of_thresh h
  obtain ⟨hneed, hacc⟩ := tally_cons hacc
  have hx : x.typ.has .B = true ∧ x.typ.has .d = true ∧ x.typ.has .u = true := by simpa using hneed
  rw [hcode]
  refine (((((hparts x (List.mem_cons_self ..)).b hx.1).andThen
    (codes_adds (fun q hq => hparts q (List.mem_cons_of_mem _ hq)) hacc)).andThen (codes_build_num hk)).andThen
    (codes_equal verify)).weaken ?_
  rintro s t ⟨_, ⟨_, ⟨_, ⟨n, rest, r, htakes, hr, rfl⟩, hmore⟩, rfl⟩, a, b, r', hs, hleaves⟩
  obtain ⟨one, hone, hsub, hall⟩ := hr.counts hx.2.2
  obtain ⟨n', v, chosen, hn', rfl, hcount, hsub', hall', hz', ho'⟩ := hmore r rest one.length n rfl hone
    (by
      intro hargs
      simp only [tally_sub, MsType.has_all_mst, List.all_cons, List.all_nil, Bool.and_true] at hargs
      have := htakes.z
      have := htakes.o
      split at hargs <;> [skip; split at hargs] <;> grind)
    (by
      intro hargs
      simp only [tally_sub, MsType.has_all_mst, List.all_cons, List.all_nil, Bool.and_true] at hargs
      have := htakes.z
      have := htakes.o
      split at hargs <;> [skip; split at hargs] <;> grind)
  cases hs
  rw [htakes.eq, List.length_drop] at hn'
  refine ⟨n + n', rest.drop n', _, ⟨by have := htakes.le; omega, ?_, ?_, ?_⟩, fun hok => ?_, hleaves⟩
  · rw [htakes.eq, List.drop_drop]
  · rw [ht]
    exact fun h => hz' (hz h)
  · rw [ht]
    exact fun h => ho' (ho h)
  · refine ⟨one ++ chosen, by simpa using hsub.append hsub', ?_, ?_⟩
    · rw [List.length_append]
      exact hcount.eq (eq_of_beq hok) hpos hk
    · intro q hq
      exact (List.mem_append.mp hq).elim (hall q) (hall' q)

end AvilaNode.Miniscript
