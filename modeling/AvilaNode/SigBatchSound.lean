import AvilaNode.SigBatch

/-! What a batch that is valid under every draw says of its records. -/

namespace AvilaNode.SigBatch

open BucketSums

variable {r : Scalar} {rec : Record}

theorem scalar_strict_eq_some {bytes : U256} :
    scalar_strict bytes = some r ↔ bytes.toNat ≠ 0 ∧ bytes.toNat < ORDER.toNat ∧ r.val = bytes.toNat := by
  have hzero : bytes = 0 ↔ bytes.toNat = 0 := BitVec.toNat_eq
  unfold scalar_strict
  split
  · rename_i hge
    have := BitVec.le_def.mp hge
    simp only [reduceCtorEq, false_iff]
    omega
  · rename_i hlt
    rw [BitVec.not_le, BitVec.lt_def] at hlt
    split
    · rename_i h0
      simp [hzero.mp h0]
    rename_i h0
    rw [hzero] at h0
    rw [Option.some_inj]
    constructor
    · rintro rfl
      exact ⟨h0, hlt, ZMod.val_cast_of_lt hlt⟩
    · rintro ⟨-, -, hv⟩
      rw [← hv, ZMod.natCast_zmod_val]

def Wraps (rec : Record) (r : ℕ) : Prop := rec.advice.byte &&& 2 ≠ 0 ∧ 2 ^ 256 ≤ r + ORDER.toNat

theorem order_lt : ORDER.toNat < 2 ^ 256 ∧ 2 ^ 256 < 2 * ORDER.toNat ∧ ORDER.toNat < FIELD_P.toNat := by decide

theorem val_lt (r : Scalar) : r.val < ORDER.toNat := ZMod.val_lt r

theorem to_repr_toNat (r : Scalar) : (to_repr r).toNat = r.val := by
  have := val_lt r
  have := order_lt.1
  rw [to_repr, BitVec.toNat_ofNat, Nat.mod_eq_of_lt (by omega)]

variable {x : U256}

section

variable (h : nonce_x rec.advice.byte r = some x)
include h

theorem nonce_x_spec :
    (x.toNat = r.val ∧ rec.advice.byte &&& 2 = 0) ∨
      (x.toNat = (r.val + ORDER.toNat) % 2 ^ 256 ∧ x < FIELD_P ∧ rec.advice.byte &&& 2 ≠ 0) := by
  unfold nonce_x at h
  split at h
  · rename_i hbit
    dsimp only at h
    split at h
    · cases h
    · rename_i hlt
      obtain rfl := Option.some.inj h
      refine Or.inr ⟨?_, BitVec.not_le.mp hlt, hbit⟩
      rw [BitVec.toNat_add, to_repr_toNat]
  · rename_i hbit
    obtain rfl := Option.some.inj h
    exact Or.inl ⟨to_repr_toNat r, not_not.mp hbit⟩

theorem nonce_x_iff :
    (x.toNat = r.val ∨ (x.toNat = r.val + ORDER.toNat ∧ r.val + ORDER.toNat < FIELD_P.toNat)) ↔
      ¬ Wraps rec r.val := by
  have hr := val_lt r
  obtain ⟨hn, hn', -⟩ := order_lt
  unfold Wraps
  rcases nonce_x_spec h with ⟨hx, hbit⟩ | ⟨hx, hlt, hbit⟩
  · simp [hx, hbit]
  rw [BitVec.lt_def] at hlt
  by_cases hwrap : 2 ^ 256 ≤ r.val + ORDER.toNat
  · have hmod : (r.val + ORDER.toNat) % 2 ^ 256 = r.val + ORDER.toNat - 2 ^ 256 := by
      rw [Nat.mod_eq_sub_mod hwrap, Nat.mod_eq_of_lt (by omega)]
    simp only [hbit, hwrap, ne_eq, not_false_eq_true, and_self, not_true_eq_false, iff_false]
    omega
  · have hmod : (r.val + ORDER.toNat) % 2 ^ 256 = r.val + ORDER.toNat := Nat.mod_eq_of_lt (by omega)
    simp only [hwrap, and_false, not_false_eq_true, iff_true]
    omega

theorem nonce_x_cast_iff :
    (x.toNat : Scalar) = r ↔ ¬ Wraps rec r.val := by
  have hr := val_lt r
  obtain ⟨hn, hn', -⟩ := order_lt
  constructor
  · rintro hcast ⟨hbit, hwrap⟩
    rcases nonce_x_spec h with ⟨-, hbit'⟩ | ⟨hx, -, -⟩
    · exact hbit hbit'
    have hmod : (r.val + ORDER.toNat) % 2 ^ 256 = r.val + ORDER.toNat - 2 ^ 256 := by
      rw [Nat.mod_eq_sub_mod hwrap, Nat.mod_eq_of_lt (by omega)]
    have hval := congrArg ZMod.val hcast
    rw [hx, hmod, ZMod.val_cast_of_lt (by omega)] at hval
    omega
  · intro hwrap
    rcases (nonce_x_iff h).mpr hwrap with hx | ⟨hx, -⟩
    · rw [hx, ZMod.natCast_zmod_val]
    · rw [hx, Nat.cast_add, ZMod.natCast_self, add_zero, ZMod.natCast_zmod_val]

end

theorem fresh_coeff_spec (bufs : List U256) : fresh_coeff bufs ≠ 0 ∧ (fresh_coeff bufs).val < 2 ^ 96 := by
  have hsmall : (2 : ℕ) ^ 96 < ORDER.toNat := by decide
  induction bufs with
  | nil =>
    rw [fresh_coeff]
    have hone : (1 : Scalar).val = 1 := by
      have h : ((1 : ℕ) : Scalar).val = 1 := ZMod.val_cast_of_lt (by omega)
      rwa [Nat.cast_one] at h
    refine ⟨fun h0 => ?_, by omega⟩
    rw [h0, ZMod.val_zero] at hone
    cases hone
  | cons buf bufs ih =>
    rw [fresh_coeff]
    split
    · rename_i hne
      refine ⟨hne, ?_⟩
      rw [scalar_reduced, BitVec.toNat_ofNat, Nat.mod_eq_of_lt (by omega), ZMod.val_cast_of_lt (by omega)]
      omega
    · exact ih

theorem fresh_coeff_one {k : ℕ} (hk : k = 1 ∨ k = 2) : (fresh_coeff [BitVec.ofNat 256 k]).val = k := by
  have hsmall : (2 : ℕ) < ORDER.toNat := by decide
  have hval : (scalar_reduced (BitVec.ofNat 256 ((BitVec.ofNat 256 k).toNat % 2 ^ 96))).val = k := by
    rw [scalar_reduced, BitVec.toNat_ofNat, BitVec.toNat_ofNat]
    rw [show k % 2 ^ 256 % 2 ^ 96 % 2 ^ 256 = k by omega, ZMod.val_cast_of_lt (by omega)]
  rw [fresh_coeff, if_pos, hval]
  intro h0
  rw [h0, ZMod.val_zero] at hval
  omega

theorem prefixes_spec (running : Scalar) (ss : List Scalar) :
    (prefixes running ss).1.length = ss.length ∧ (prefixes running ss).2 = running * ss.prod := by
  induction ss generalizing running with
  | nil => simp [prefixes]
  | cons s ss ih =>
    obtain ⟨hlen, hprod⟩ := ih (running * s)
    rw [prefixes]
    exact ⟨by simp [hlen], by rw [hprod, List.prod_cons, mul_assoc]⟩

theorem unwind_spec {running inv : Scalar} {ss : List Scalar} (h : running * ss.prod * inv = 1) :
    List.Forall₂ (fun s i => s * i = 1) ss
        (((prefixes running ss).1.zip ss).foldr (fun p out => (p.1 * out.2 :: out.1, out.2 * p.2)) ([], inv)).1 ∧
      running * (((prefixes running ss).1.zip ss).foldr
        (fun p out => (p.1 * out.2 :: out.1, out.2 * p.2)) ([], inv)).2 = 1 := by
  induction ss generalizing running with
  | nil =>
    rw [List.prod_nil, mul_one] at h
    exact ⟨.nil, h⟩
  | cons s ss ih =>
    rw [List.prod_cons, ← mul_assoc] at h
    obtain ⟨hall, hrest⟩ := ih h
    rw [prefixes]
    simp only [List.zip_cons_cons, List.foldr_cons]
    refine ⟨.cons ?_ hall, ?_⟩
    · rw [← hrest]
      ring
    · rw [← hrest]
      ring

theorem invert_batch_spec {ss out : List Scalar} (h : invert_batch ss = some out) :
    List.Forall₂ (fun s i => s * i = 1) ss out := by
  unfold invert_batch at h
  obtain ⟨inv, hinv, rfl⟩ := Option.map_eq_some_iff.mp h
  unfold invert at hinv
  split at hinv
  · rename_i hunit
    obtain rfl := Option.some.inj hinv
    apply (unwind_spec ?_).1
    rw [← (prefixes_spec 1 ss).2]
    exact hunit
  · cases hinv

theorem mem_mapM {α β : Type} {f : α → Option β} {as : List α} {bs : List β} (h : as.mapM f = some bs) {a : α}
    (ha : a ∈ as) : ∃ b ∈ bs, f a = some b := by
  induction as generalizing bs with
  | nil => cases ha
  | cons a' as ih =>
    rw [List.mapM_cons] at h
    obtain ⟨b, hb, h⟩ := Option.bind_eq_some_iff.mp h
    obtain ⟨bs', hbs, h⟩ := Option.bind_eq_some_iff.mp h
    obtain rfl := Option.some.inj h
    rcases List.mem_cons.mp ha with rfl | ha
    · exact ⟨b, List.mem_cons_self, hb⟩
    · obtain ⟨b', hb', hfa⟩ := ih hbs ha
      exact ⟨b', List.mem_cons_of_mem _ hb', hfa⟩

section

variable {Point : Type} [AddCommGroup Point]

theorem msm_vartime_eq {terms : List (Point × Scalar × Bool)} (h : ∀ t ∈ terms, t.2.2 = true → t.2.1.val < 2 ^ 96) :
    msm_vartime terms = combination (terms.map fun t => (t.2.1.val, t.1)) := by
  have hfull : ∀ t ∈ terms, t.2.1.val / (2 ^ W) ^ WINDOWS = 0 := by
    intro t _
    apply Nat.div_eq_of_lt
    have := val_lt t.2.1
    have := order_lt.1
    change t.2.1.val < (2 ^ 8) ^ 32
    omega
  have hzero : combination ((terms.map fun t => (t.2.1.val, t.1)).map fun t => (t.1 / (2 ^ W) ^ WINDOWS, t.2)) =
    0 := by
    unfold combination
    rw [List.map_map, List.map_map]
    apply List.sum_eq_zero
    intro p hp
    obtain ⟨t, ht, rfl⟩ := List.mem_map.mp hp
    simp [hfull t ht]
  rw [msm_vartime, ← @windows_eq _ _ _ W WINDOWS, hzero]
  intro w hw
  have hdigit : ∀ t ∈ window_digits terms w, t.1 < BUCKETS := by
    intro t ht
    obtain ⟨t', -, rfl⟩ := List.mem_map.mp ht
    exact Nat.mod_lt _ (by decide)
  rw [window_eq hdigit]
  have hw' : w < 32 := hw
  unfold window_digits combination
  rw [List.map_map, List.map_map, List.map_map]
  clear hfull hzero hdigit hw
  induction terms with
  | nil => rfl
  | cons t terms ih =>
    have hrest := ih fun t ht => h t (List.mem_cons_of_mem _ ht)
    have hhead : repr_byte t.2.1 (31 - w) = t.2.1.val / (2 ^ W) ^ w % 2 ^ W := by
      rw [repr_byte, show 31 - (31 - w) = w by omega, W]
    rw [List.filter_cons]
    split
    · rw [List.map_cons, List.sum_cons, List.map_cons, List.sum_cons, hrest]
      simp only [Function.comp_apply, hhead]
    rename_i hskip
    simp only [Bool.not_eq_true', Bool.and_eq_false_iff, decide_eq_false_iff_not, not_or, Bool.not_eq_false,
      not_not] at hskip
    have hshort := h t List.mem_cons_self hskip.1
    have hdiv : t.2.1.val / (2 ^ W) ^ w = 0 := by
      apply Nat.div_eq_of_lt
      calc t.2.1.val < 2 ^ 96 := hshort
        _ = (2 ^ W) ^ 12 := by decide
        _ ≤ (2 ^ W) ^ w := Nat.pow_le_pow_right (by decide) hskip.2
    rw [hrest, List.map_cons, List.sum_cons]
    simp [hdiv]

variable [Curve Point]

variable {rec : Record} {parsed : List Parsed} {records : List Record}

theorem nonce_point_spec {p : Point} (h : nonce_point rec r = some p) :
    p ≠ 0 ∧ nonce_x rec.advice.byte r = some (Curve.x p) := by
  unfold nonce_point at h
  split at h
  · cases h
  split at h
  · cases h
  rename_i x hx
  rw [hx]
  split at h
  · split at h
    · cases h
    rename_i p' hp
    split at h
    · cases h
    · obtain rfl := Option.some.inj h
      obtain ⟨hne, hpx, -⟩ := Curve.from_coordinates_eq_some.mp hp
      exact ⟨hne, by rw [hpx]⟩
  · obtain ⟨hne, hpx, -⟩ := Curve.decompress_eq_some.mp h
    exact ⟨hne, by rw [hpx]⟩

theorem nonce_point_iff {p : Point} (h : nonce_point rec r = some p) : ((Curve.x p).toNat = r.val ∨
      ((Curve.x p).toNat = r.val + ORDER.toNat ∧ r.val + ORDER.toNat < FIELD_P.toNat)) ↔ ¬ Wraps rec r.val :=
  nonce_x_iff (nonce_point_spec h).2

theorem pubkey_point_eq (rec : Record) :
    (pubkey_point rec : Option Point) = (tag_odd rec.pubkey.1).bind (Curve.decompress rec.pubkey.2) := by
  unfold pubkey_point
  cases tag_odd rec.pubkey.1 with
  | none => rfl
  | some odd =>
    dsimp only [Option.bind_some]
    cases hh : (Curve.from_coordinates rec.pubkey.2 rec.advice.key_y : Option Point).filter
        fun p => y_is_odd p == odd with
    | none => rfl
    | some p =>
      obtain ⟨hp, hodd⟩ := Option.filter_eq_some_iff.mp hh
      obtain ⟨hne, hx, -⟩ := Curve.from_coordinates_eq_some.mp hp
      symm
      exact Curve.decompress_eq_some.mpr ⟨hne, hx, by simpa [y_is_odd] using hodd⟩

def Keyed (groups : List (PubKey × Point)) : Prop :=
  ∀ g ∈ groups, (tag_odd g.1.1).bind (Curve.decompress g.1.2) = some g.2

structure Parses (groups : List (PubKey × Point)) (rec : Record) (p : Parsed) : Prop where
  r : scalar_strict rec.sig.1 = some p.r
  s : scalar_strict rec.sig.2 = some p.s
  z : p.z = scalar_reduced rec.z
  key : ∃ q, pubkey_point rec = some q ∧ groups[p.group]? = some (rec.pubkey, q)

omit [AddCommGroup Point] [Curve Point] in
theorem enter_keeps (groups : List (PubKey × Point)) (pubkey : PubKey) (q : Point) :
    groups <+: (enter groups pubkey q).2 := by
  unfold enter
  split
  · exact List.prefix_refl _
  · exact List.prefix_append _ _

variable {groups : List (PubKey × Point)}

theorem enter_spec (hk : Keyed groups) {q : Point} (hq : pubkey_point rec = some q) :
    Keyed (enter groups rec.pubkey q).2 ∧
      (enter groups rec.pubkey q).2[(enter groups rec.pubkey q).1]? = some (rec.pubkey, q) := by
  rw [pubkey_point_eq] at hq
  unfold enter
  split
  · rename_i gi hfind
    obtain ⟨hlt, hkey, -⟩ := List.findIdx?_eq_some_iff_getElem.mp hfind
    rw [beq_iff_eq] at hkey
    have hpoint := hk _ (List.getElem_mem hlt)
    rw [hkey, hq] at hpoint
    refine ⟨hk, ?_⟩
    rw [List.getElem?_eq_getElem hlt, Option.some_inj]
    exact Prod.ext hkey (Option.some.inj hpoint).symm
  · refine ⟨?_, by simp⟩
    intro g hg
    rcases List.mem_append.mp hg with hg | hg
    · exact hk g hg
    · rw [List.mem_singleton.mp hg]
      exact hq

theorem parse_records_spec {groups groups' : List (PubKey × Point)} {recs : List Record} (hk : Keyed groups)
    (h : parse_records groups recs = some (parsed, groups')) :
    groups <+: groups' ∧ List.Forall₂ (Parses groups') recs parsed := by
  induction recs generalizing groups parsed with
  | nil =>
    cases h
    exact ⟨List.prefix_refl _, .nil⟩
  | cons rec recs ih =>
    rw [parse_records] at h
    split at h
    · rename_i r s q hr hs hq
      obtain ⟨⟨rest, groups''⟩, hrest, heq⟩ := Option.map_eq_some_iff.mp h
      obtain ⟨rfl, rfl⟩ := Prod.mk.inj heq
      obtain ⟨hk', hget⟩ := enter_spec hk hq
      obtain ⟨hpre, hall⟩ := ih hk' hrest
      refine ⟨(enter_keeps groups rec.pubkey q).trans hpre, .cons ⟨hr, hs, rfl, q, hq, ?_⟩ hall⟩
      obtain ⟨hlt, -⟩ := List.getElem?_eq_some_iff.mp hget
      obtain ⟨tail, htail⟩ := hpre
      change _ ++ tail = groups'' at htail
      change groups''[(enter groups rec.pubkey q).1]? = some (rec.pubkey, q)
      rw [← htail, List.getElem?_append_left hlt, hget]
    · cases h

abbrev scalar_module : Module Scalar Point := AddCommGroup.zmodModule Curve.order_smul

attribute [local instance] scalar_module

theorem val_smul (a : Scalar) (p : Point) : a.val • p = a • p := by
  rw [← Nat.cast_smul_eq_nsmul Scalar, ZMod.natCast_zmod_val]

def key_point (groups : List (PubKey × Point)) (p : Parsed) : Point := (groups[p.group]?.map Prod.snd).getD 0

def residue (groups : List (PubKey × Point)) (t : Record × Parsed × Scalar) : Option Point :=
  (nonce_point t.1 t.2.1.r).map fun nonce =>
    nonce - ((t.2.1.z * t.2.2).val • Curve.GENERATOR + (t.2.1.r * t.2.2).val • key_point groups t.2.1)

def Sums.value (st : Sums Point) (groups : List (PubKey × Point)) : Point :=
  combination ((st.all groups).map fun t => (t.2.1.val, t.1))

def Sums.Short (st : Sums Point) : Prop := ∀ t ∈ st.terms, t.2.2 = true → t.2.1.val < 2 ^ 96

def group_sum (groups : List (PubKey × Point)) (group_acc : List Scalar) : Point :=
  ((groups.zip group_acc).map fun g => g.2 • g.1.2).sum

variable {g : PubKey × Point}

theorem group_sum_modify {group_acc : List Scalar} {gi : ℕ} (hg : groups[gi]? = some g)
    (hlen : groups.length = group_acc.length) (c : Scalar) :
    group_sum groups (group_acc.modify gi fun acc => acc - c) = group_sum groups group_acc - c • g.2 := by
  unfold group_sum
  induction groups generalizing group_acc gi with
  | nil => simp at hg
  | cons g' groups ih =>
    cases group_acc with
    | nil => simp at hlen
    | cons acc group_acc =>
      cases gi with
      | zero =>
        obtain rfl : g' = g := by simpa using hg
        rw [List.modify_zero_cons, List.zip_cons_cons, List.zip_cons_cons, List.map_cons, List.map_cons,
          List.sum_cons,
          List.sum_cons, sub_smul]
        abel
      | succ gi =>
        rw [List.modify_succ_cons, List.zip_cons_cons, List.zip_cons_cons, List.map_cons, List.map_cons,
          List.sum_cons,
          List.sum_cons, ih (by simpa using hg) (by simpa using hlen)]
        abel

theorem Sums.value_eq (st : Sums Point) (groups : List (PubKey × Point)) : st.value groups =
    (st.terms.map fun t => t.2.1 • t.1).sum + group_sum groups st.group_acc - st.gen_scalar • Curve.GENERATOR := by
  unfold Sums.value Sums.all combination group_sum
  simp only [List.map_append, List.map_map, List.sum_append, List.map_cons, List.map_nil, List.sum_cons, List.sum_nil,
    add_zero, Function.comp_def, val_smul, neg_smul]
  abel

theorem Sums.value_add {st : Sums Point} {p : Parsed} (hg : groups[p.group]? = some g)
    (hlen : groups.length = st.group_acc.length) (nonce : Point) (a v u : Scalar) :
    (st.add nonce a v u p.group).value groups =
      st.value groups + a.val • (nonce - (u.val • Curve.GENERATOR + v.val • key_point groups p)) := by
  have hkey : key_point groups p = g.2 := by rw [key_point, hg]; rfl
  rw [Sums.value_eq, Sums.value_eq, hkey]
  unfold Sums.add
  rw [group_sum_modify hg hlen, List.map_append, List.sum_append, List.map_singleton, List.sum_singleton]
  simp only [val_smul, add_smul, smul_sub, smul_add, mul_smul]
  abel

omit [AddCommGroup Point] [Curve Point] in
theorem Sums.short_add {st : Sums Point} (h : st.Short) (nonce : Point) (bufs : List U256) (v u : Scalar) (gi : ℕ) :
    (st.add nonce (fresh_coeff bufs) v u gi).Short := by
  intro t ht hshort
  rcases List.mem_append.mp ht with ht | ht
  · exact h t ht hshort
  · rw [List.mem_singleton.mp ht]
    exact (fresh_coeff_spec bufs).2

variable (entropy : ℕ → List U256)

theorem sum_records_spec (i : ℕ) {recs : List (Record × Parsed × Scalar)} {st : Sums Point}
    (hg : ∀ t ∈ recs, ∃ g, groups[t.2.1.group]? = some g) (hlen : groups.length = st.group_acc.length) (hs : st.Short) :
    match recs.mapM (residue groups) with
    | none => sum_records entropy i recs st = none
    | some residues => ∃ st', sum_records entropy i recs st = some st' ∧ st'.Short ∧
        st'.value groups = st.value groups + weighted (fun j => (fresh_coeff (entropy j)).val) i residues := by
  induction recs generalizing i st with
  | nil => exact ⟨st, rfl, hs, by simp [weighted]⟩
  | cons t recs ih =>
    obtain ⟨rec, p, sinv⟩ := t
    obtain ⟨g, hget⟩ := hg _ List.mem_cons_self
    have hrest := fun st hlen hs => @ih (i + 1) st (fun t ht => hg t (List.mem_cons_of_mem _ ht)) hlen hs
    rw [List.mapM_cons, residue, sum_records]
    cases hn : (nonce_point rec p.r : Option Point) with
    | none => exact rfl
    | some nonce =>
      have hnext := hrest (st.add nonce (fresh_coeff (entropy i)) (p.r * sinv) (p.z * sinv) p.group)
        (hlen.trans (List.length_modify ..).symm) (Sums.short_add hs _ _ _ _ _)
      cases hm : recs.mapM (residue groups) with
      | none =>
        rw [hm] at hnext
        exact hnext
      | some residues =>
        rw [hm] at hnext
        obtain ⟨st', hst, hshort, hval⟩ := hnext
        refine ⟨st', hst, hshort, ?_⟩
        rw [hval, Sums.value_add hget hlen, weighted, add_assoc]

structure Opens (records : List Record) (parsed : List Parsed) (groups : List (PubKey × Point))
    (sinv : List Scalar) (residues : List Point) : Prop where
  parses : parse_records ([] : List (PubKey × Point)) records = some (parsed, groups)
  inverts : invert_batch (parsed.map Parsed.s) = some sinv
  residues : (records.zip (parsed.zip sinv)).mapM (residue groups) = some residues

theorem Opens.aligned (h : parse_records ([] : List (PubKey × Point)) records = some (parsed, groups)) :
    List.Forall₂ (Parses groups) records parsed := (parse_records_spec (by simp [Keyed]) h).2

theorem parsed_groups (h : List.Forall₂ (Parses groups) records parsed) (sinv : List Scalar) :
    ∀ t ∈ records.zip (parsed.zip sinv), ∃ g, groups[t.2.1.group]? = some g := by
  intro t ht
  obtain ⟨i, hi, rfl⟩ := List.mem_iff_getElem.mp ht
  have hrec : i < records.length := by simp at hi; omega
  have hpar : i < parsed.length := by simp at hi; omega
  obtain ⟨q, -, hq⟩ := (h.get hrec hpar).key
  rw [List.getElem_zip, List.getElem_zip]
  exact ⟨_, hq⟩

variable [DecidableEq Point]

theorem batch_verify_iff (hne : records ≠ []) :
    batch_verify Point (some entropy) records = .Valid ↔ ∃ parsed groups sinv, ∃ residues : List Point,
      Opens records parsed groups sinv residues ∧
        weighted (fun j => (fresh_coeff (entropy j)).val) 0 residues = 0 := by
  unfold batch_verify
  rw [if_neg hne]
  cases hp : parse_records ([] : List (PubKey × Point)) records with
  | none =>
    refine iff_of_false nofun ?_
    rintro ⟨parsed, groups, sinv, residues, ho, -⟩
    have := ho.parses
    rw [hp] at this
    cases this
  | some parse =>
    obtain ⟨parsed, groups⟩ := parse
    cases hi : invert_batch (parsed.map Parsed.s) with
    | none =>
      dsimp only
      rw [hi]
      refine iff_of_false nofun ?_
      rintro ⟨parsed', groups', sinv, residues, ho, -⟩
      obtain ⟨rfl, rfl⟩ := Prod.mk.inj (Option.some.inj (hp.symm.trans ho.parses))
      have := ho.inverts
      rw [hi] at this
      cases this
    | some sinv =>
      dsimp only
      rw [hi]
      dsimp only
      have hloop := @sum_records_spec _ _ _ groups entropy 0 _ ⟨[], groups.map fun _ => 0, 0⟩
        (parsed_groups (Opens.aligned hp) sinv) (List.length_map ..).symm nofun
      have hempty : (⟨[], groups.map fun _ => 0, 0⟩ : Sums Point).value groups = 0 := by
        rw [Sums.value_eq, group_sum]
        have hzero : ((groups.zip (groups.map fun _ => (0 : Scalar))).map fun g => g.2 • g.1.2).sum =
          (0 : Point) := by
          apply List.sum_eq_zero
          intro x hx
          obtain ⟨g, hg, rfl⟩ := List.mem_map.mp hx
          obtain ⟨-, -, hg'⟩ := List.mem_map.mp (List.of_mem_zip hg).2
          rw [← hg', zero_smul]
        rw [hzero, List.map_nil, List.sum_nil, zero_smul, add_zero, sub_zero]
      cases hm : (records.zip (parsed.zip sinv)).mapM (residue groups) with
      | none =>
        rw [hm] at hloop
        rw [hloop]
        refine iff_of_false nofun ?_
        rintro ⟨parsed', groups', sinv', residues, ho, -⟩
        obtain ⟨rfl, rfl⟩ := Prod.mk.inj (Option.some.inj (hp.symm.trans ho.parses))
        obtain rfl := Option.some.inj (hi.symm.trans ho.inverts)
        have := ho.residues
        rw [hm] at this
        cases this
      | some residues =>
        rw [hm] at hloop
        obtain ⟨st, hst, hshort, hval⟩ := hloop
        rw [hempty, zero_add] at hval
        have hmsm : msm_vartime (st.all groups) = weighted (fun j => (fresh_coeff (entropy j)).val) 0 residues := by
          rw [← hval, Sums.value]
          apply msm_vartime_eq
          intro t ht hs
          rcases List.mem_append.mp ht with ht | ht
          · rcases List.mem_append.mp ht with ht | ht
            · exact hshort t ht hs
            · obtain ⟨g, -, rfl⟩ := List.mem_map.mp ht
              cases hs
          · rw [List.mem_singleton.mp ht] at hs
            cases hs
        rw [hst]
        dsimp only
        rw [hmsm]
        constructor
        · intro h
          refine ⟨parsed, groups, sinv, residues, ⟨hp, hi, hm⟩, ?_⟩
          by_contra hz
          rw [if_neg hz] at h
          cases h
        · rintro ⟨parsed', groups', sinv', residues', ho, hz⟩
          obtain ⟨rfl, rfl⟩ := Prod.mk.inj (Option.some.inj (hp.symm.trans ho.parses))
          obtain rfl := Option.some.inj (hi.symm.trans ho.inverts)
          obtain rfl := Option.some.inj (hm.symm.trans ho.residues)
          rw [if_pos hz]

theorem batch_verify_all_iff (hne : records ≠ []) :
    (∀ entropy, batch_verify Point (some entropy) records = .Valid) ↔ ∃ parsed groups sinv, ∃ residues : List Point,
      Opens records parsed groups sinv residues ∧ ∀ p ∈ residues, p = 0 := by
  constructor
  · intro h
    obtain ⟨parsed, groups, sinv, residues, ho, -⟩ := (batch_verify_iff (fun _ => []) hne).mp (h _)
    refine ⟨parsed, groups, sinv, residues, ho, eq_zero_of_weighted (i := 0) fun c hc => ?_⟩
    obtain ⟨parsed', groups', sinv', residues', ho', hz⟩ :=
      (batch_verify_iff (fun j => [BitVec.ofNat 256 (c j)]) hne).mp (h _)
    obtain ⟨rfl, rfl⟩ := Prod.mk.inj (Option.some.inj (ho.parses.symm.trans ho'.parses))
    obtain rfl := Option.some.inj (ho.inverts.symm.trans ho'.inverts)
    obtain rfl := Option.some.inj (ho.residues.symm.trans ho'.residues)
    rw [← hz]
    exact weighted_congr residues fun j _ => (fresh_coeff_one (hc j)).symm
  · rintro ⟨parsed, groups, sinv, residues, ho, hz⟩ entropy
    refine (batch_verify_iff entropy hne).mpr ⟨parsed, groups, sinv, residues, ho, ?_⟩
    have : ∀ i, weighted (fun j => (fresh_coeff (entropy j)).val) i residues = 0 := by
      clear ho
      induction residues with
      | nil => exact fun _ => rfl
      | cons p residues ih =>
        intro i
        rw [weighted, hz p List.mem_cons_self, smul_zero, zero_add, ih fun p hp => hz p (List.mem_cons_of_mem _ hp)]
    exact this 0

omit [DecidableEq Point] in
theorem ecdsa_verify_iff {p : Parsed} {sinv : Scalar} {nonce : Point} (hp : Parses groups rec p)
    (hinv : p.s * sinv = 1) (hn : nonce_point rec p.r = some nonce) (hz : residue groups (rec, p, sinv) = some 0) :
    ecdsa_verify Point rec ↔ ¬ Wraps rec rec.sig.1.toNat := by
  obtain ⟨q, hq, hgroup⟩ := hp.key
  have hkey : key_point groups p = q := by rw [key_point, hgroup]; rfl
  have hsinv : p.s⁻¹ = sinv := ZMod.inv_eq_of_mul_eq_one _ _ _ hinv
  rw [residue, hn, Option.map_some, Option.some_inj, hkey, sub_eq_zero] at hz
  obtain ⟨hne, hx⟩ := nonce_point_spec hn
  have hr : p.r.val = rec.sig.1.toNat := (scalar_strict_eq_some.mp hp.r).2.2
  rw [pubkey_point_eq] at hq
  obtain ⟨odd, hodd, hq⟩ := Option.bind_eq_some_iff.mp hq
  rw [← hr, ← nonce_x_cast_iff hx]
  constructor
  · rintro ⟨r, s, odd', q', hr', hs', hodd', hq', -, hcast⟩
    obtain rfl := Option.some.inj (hp.r.symm.trans hr')
    obtain rfl := Option.some.inj (hp.s.symm.trans hs')
    obtain rfl := Option.some.inj (hodd.symm.trans hodd')
    obtain rfl := Option.some.inj (hq.symm.trans hq')
    rwa [← hp.z, hsinv, ← hz] at hcast
  · intro hcast
    refine ⟨p.r, p.s, odd, q, hp.r, hp.s, hodd, hq, ?_⟩
    rw [← hp.z, hsinv, ← hz]
    exact ⟨hne, hcast⟩

/-- If a batch passes under every draw, its records are all ECDSA signatures exactly where no nonce wraps; and a
nonce point has `r` or `r + n` for its x coordinate exactly there. -/
theorem batch_sound_iff (valid : ∀ entropy, batch_verify Point (some entropy) records = .Valid) :
    ((∀ rec ∈ records, ecdsa_verify Point rec) ↔ ∀ rec ∈ records, ¬ Wraps rec rec.sig.1.toNat) ∧
      ∀ (rec : Record) (r : Scalar) (nonce : Point), nonce_point rec r = some nonce →
        (((Curve.x nonce).toNat = r.val ∨
          ((Curve.x nonce).toNat = r.val + ORDER.toNat ∧ r.val + ORDER.toNat < FIELD_P.toNat)) ↔
            ¬ Wraps rec r.val) := by
  refine ⟨?_, fun rec r nonce h => nonce_point_iff h⟩
  by_cases hne : records = []
  · simp [hne]
  obtain ⟨parsed, groups, sinv, residues, ho, hzero⟩ := (batch_verify_all_iff hne).mp valid
  have hall := Opens.aligned ho.parses
  have hinv := invert_batch_spec ho.inverts
  have hlen : sinv.length = parsed.length := by rw [← hinv.length_eq, List.length_map]
  refine forall₂_congr fun rec hrec => ?_
  obtain ⟨i, hi, rfl⟩ := List.mem_iff_getElem.mp hrec
  have hpar : i < parsed.length := by rw [← hall.length_eq]; exact hi
  have hsin : i < sinv.length := by omega
  have hmem : (records[i], parsed[i], sinv[i]) ∈ records.zip (parsed.zip sinv) := by
    refine List.mem_iff_getElem.mpr ⟨i, by simp; omega, ?_⟩
    rw [List.getElem_zip, List.getElem_zip]
  obtain ⟨p, hp, hres⟩ := mem_mapM ho.residues hmem
  obtain rfl := hzero p hp
  obtain ⟨nonce, hn, -⟩ := Option.map_eq_some_iff.mp hres
  have hunit := hinv.get (by rw [List.length_map]; exact hpar) hsin
  rw [List.get_eq_getElem, List.getElem_map] at hunit
  exact ecdsa_verify_iff (hall.get hi hpar) hunit hn hres

end

def line_x (p : Scalar) : U256 := BitVec.ofNat 256 (min p.val (ORDER.toNat - p.val))

def line_y (p : Scalar) : U256 := if 2 * p.val < ORDER.toNat then 2 else FIELD_P - 2

def line_decompress (x : U256) (odd : Bool) : Option Scalar :=
  if x.toNat ≠ 0 ∧ 2 * x.toNat < ORDER.toNat then some (if odd then -(x.toNat : Scalar) else (x.toNat : Scalar))
  else none

theorem line_x_toNat (p : Scalar) : (line_x p).toNat = min p.val (ORDER.toNat - p.val) := by
  have := val_lt p
  have := order_lt.1
  rw [line_x, BitVec.toNat_ofNat, Nat.mod_eq_of_lt (by omega)]

theorem line_y_odd (p : Scalar) : (line_y p).getLsbD 0 = !decide (2 * p.val < ORDER.toNat) := by
  unfold line_y
  split
  · rename_i h
    rw [decide_eq_true h]
    decide
  · rename_i h
    rw [decide_eq_false h]
    decide

theorem line_decompress_eq_some {odd : Bool} {p : Scalar} :
    line_decompress x odd = some p ↔ p ≠ 0 ∧ line_x p = x ∧ (line_y p).getLsbD 0 = odd := by
  have hp := val_lt p
  have hodd : ORDER.toNat % 2 = 1 := by decide
  rw [line_y_odd, BitVec.toNat_eq, line_x_toNat, ← ZMod.val_ne_zero]
  have hneg : ∀ k : ℕ, k ≠ 0 → k < ORDER.toNat → (-(k : Scalar)).val = ORDER.toNat - k := by
    intro k h0 hk
    have hne : (k : Scalar) ≠ 0 := by
      rw [← ZMod.val_ne_zero, ZMod.val_cast_of_lt hk]
      exact h0
    have : NeZero (k : Scalar) := ⟨hne⟩
    rw [ZMod.val_neg_of_ne_zero, ZMod.val_cast_of_lt hk]
  unfold line_decompress
  split
  · rename_i hx
    obtain ⟨h0, hlt⟩ := hx
    rw [Option.some_inj]
    constructor
    · rintro rfl
      cases odd with
      | false =>
        simp only [Bool.false_eq_true, if_false]
        rw [ZMod.val_cast_of_lt (by omega)]
        exact ⟨h0, by omega, by simp [hlt]⟩
      | true =>
        simp only [if_true]
        rw [hneg _ h0 (by omega)]
        exact ⟨by omega, by omega, by simp; omega⟩
    · rintro ⟨hne, hx, rfl⟩
      apply ZMod.val_injective
      by_cases hhalf : 2 * p.val < ORDER.toNat
      · simp only [hhalf, decide_true, Bool.not_true, Bool.false_eq_true, if_false]
        rw [ZMod.val_cast_of_lt (by omega)]
        omega
      · simp only [hhalf, decide_false, Bool.not_false, if_true]
        rw [hneg _ h0 (by omega)]
        omega
  · rename_i hx
    simp only [reduceCtorEq, false_iff]
    rintro ⟨hne, hx', -⟩
    apply hx
    omega

instance line : Curve Scalar where
  GENERATOR := 1
  x := line_x
  y := line_y
  from_coordinates x y := (line_decompress x (y.getLsbD 0)).filter fun p => line_y p == y
  decompress := line_decompress
  order_smul p := by rw [nsmul_eq_mul, ZMod.natCast_self, zero_mul]
  x_lt p _ := by
    have := val_lt p
    have := order_lt.2.2
    rw [BitVec.lt_def, line_x_toNat]
    omega
  from_coordinates_eq_some := by
    intro x' y' p
    rw [Option.filter_eq_some_iff, line_decompress_eq_some, beq_iff_eq]
    constructor
    · rintro ⟨⟨hne, hx, -⟩, hy⟩
      exact ⟨hne, hx, hy⟩
    · rintro ⟨hne, hx, rfl⟩
      exact ⟨⟨hne, hx, rfl⟩, rfl⟩
  decompress_eq_some := line_decompress_eq_some

def forged : Record where
  z := 2 * ORDER
  sig := (5 - ORDER, 1)
  pubkey := (0x02, 1)
  advice := ⟨2, 0, none⟩

def honest : Record where
  z := 0
  sig := (5, 1)
  pubkey := (0x02, 1)
  advice := ⟨0, 0, none⟩


def one_key : List (PubKey × Scalar) := [((0x02, 1), 1)]

theorem Opens.valid {p : Parsed} {groups : List (PubKey × Scalar)} (h : Opens [rec] [p] groups [1] [0])
    (entropy : ℕ → List U256) :
    batch_verify Scalar (some entropy) [rec] = .Valid :=
  (batch_verify_all_iff (List.cons_ne_nil _ _)).mpr ⟨_, _, _, _, h, by simp⟩ entropy

theorem invert_batch_one : invert_batch [1] = some [1] := by simp [invert_batch, prefixes, invert]

theorem residue_line {groups : List (PubKey × Scalar)} {rec : Record} {p : Parsed} {sinv nonce : Scalar}
    (hn : nonce_point rec p.r = some nonce) : residue groups (rec, p, sinv) =
      some (nonce - (p.z * sinv * Curve.GENERATOR + p.r * sinv * key_point groups p)) := by
  rw [residue, hn, Option.map_some, nsmul_eq_mul, nsmul_eq_mul, ZMod.natCast_zmod_val, ZMod.natCast_zmod_val]

def forged_parse : Parsed := ⟨scalar_reduced (5 - ORDER), 1, scalar_reduced (2 * ORDER), 0⟩

theorem forged_nonce : (nonce_point forged forged_parse.r : Option Scalar) = some 5 := by decide

theorem forged_residue : residue one_key (forged, forged_parse, 1) = some 0 := by
  rw [residue_line forged_nonce]
  decide

theorem honest_residue : residue one_key (honest, ⟨5, 1, 0, 0⟩, 1) = some 0 := by
  rw [@residue_line _ honest ⟨5, 1, 0, 0⟩ _ 5 (by decide)]
  decide

theorem opens_forged : Opens [forged] [forged_parse] one_key [1] [0] :=
  ⟨by decide, invert_batch_one, by simp [forged_residue]⟩

theorem opens_honest : Opens [honest] [⟨5, 1, 0, 0⟩] one_key [1] [0] :=
  ⟨by decide, invert_batch_one, by simp [honest_residue]⟩

theorem batch_accepts_forged : (∀ entropy, batch_verify Scalar (some entropy) [forged] = .Valid) ∧
    ¬ ecdsa_verify Scalar forged := by
  have hp : Parses one_key forged forged_parse :=
    ⟨by decide, by decide, rfl, 1, by decide, rfl⟩
  refine ⟨opens_forged.valid, ?_⟩
  rw [@ecdsa_verify_iff _ _ _ _ _ _ 1 _ hp (by decide) forged_nonce forged_residue, not_not]
  exact ⟨by decide, by decide⟩

theorem batch_sound_honest : ((∀ rec ∈ [honest], ecdsa_verify Scalar rec) ↔
      ∀ rec ∈ [honest], ¬ Wraps rec rec.sig.1.toNat) ∧
    ∀ (rec : Record) (r nonce : Scalar), nonce_point rec r = some nonce →
      (((Curve.x nonce).toNat = r.val ∨
        ((Curve.x nonce).toNat = r.val + ORDER.toNat ∧ r.val + ORDER.toNat < FIELD_P.toNat)) ↔
          ¬ Wraps rec r.val) :=
  batch_sound_iff opens_honest.valid
end AvilaNode.SigBatch
