import AvilaNode.PoolLineage
import AvilaNode.ReplacementFees
import Mathlib.Algebra.Group.Prod

/-! The sums that each entry keeps of its descendants, over every run of calls. -/

namespace AvilaNode

open Layers Relation ClosureWalk NodeEdits

variable {e e' : MempoolEntry}

namespace MempoolEntry

def own (entry : MempoolEntry) : ℤ × ℤ := (entry.modified_fee, entry.vsize)

def sums (entry : MempoolEntry) : ℤ × ℤ := (entry.fees_with_descendants, entry.size_with_descendants)

def amount (entry : MempoolEntry) : ℤ := |entry.fee| + |entry.fee_delta|

theorem amount_of_body (h : e.body = e'.body) : e.amount = e'.amount :=
  (congrArg amount h : e.body.amount = e'.body.amount)

theorem amount_nonneg (entry : MempoolEntry) : 0 ≤ entry.amount := add_nonneg (abs_nonneg _) (abs_nonneg _)

end MempoolEntry

theorem saturating_add_eq {a b : ℤ} (h : |a + b| < 2 ^ 63) : saturating_add a b = a + b := by
  rw [abs_lt] at h
  unfold saturating_add I64_MIN I64_MAX
  omega

theorem abs_saturating_add_le (a b : ℤ) : |saturating_add a b| ≤ |a| + |b| := by
  have hle : |saturating_add a b| ≤ |a + b| := by
    have hnonneg := abs_nonneg (a + b)
    unfold saturating_add
    apply abs_le.mpr
    constructor
    · apply le_max_of_le_right
      apply le_min _ (neg_abs_le (a + b))
      exact (neg_nonpos.mpr hnonneg).trans (by decide)
    · apply max_le _ ((min_le_right _ _).trans (le_abs_self (a + b)))
      exact le_trans (by decide) hnonneg
  exact hle.trans (abs_add_le a b)

structure Representable (s : ℤ × ℤ) : Prop where
  fee : |s.1| < 2 ^ 63
  size_nonneg : 0 ≤ s.2
  size : s.2 < 2 ^ 63

theorem shift_totals_sums {entry : MempoolEntry} {d : ℤ × ℤ} (h : Representable (entry.sums + d)) :
    (Mempool.shift_totals entry d.1 d.2).sums = entry.sums + d := by
  have hfee : saturating_add entry.fees_with_descendants d.1 = entry.fees_with_descendants + d.1 :=
    saturating_add_eq h.fee
  have hsize : saturating_add entry.size_with_descendants d.2 = entry.size_with_descendants + d.2 := by
    apply saturating_add_eq
    rw [abs_lt]
    have h0 : (0 : ℤ) ≤ entry.size_with_descendants + d.2 := h.size_nonneg
    have h1 : (entry.size_with_descendants : ℤ) + d.2 < 2 ^ 63 := h.size
    omega
  have hnonneg : (0 : ℤ) ≤ entry.size_with_descendants + d.2 := h.size_nonneg
  unfold Mempool.shift_totals MempoolEntry.sums
  rw [hfee, hsize, Int.toNat_of_nonneg hnonneg]
  rfl

namespace Mempool

structure Fits (m : Mempool) : Prop where
  amounts : total MempoolEntry.amount m.map < 2 ^ 63
  sizes : total MempoolEntry.vsize m.map < 2 ^ 63

theorem picked_own (map : Table Txid MempoolEntry) (ids : List Txid) : picked MempoolEntry.own map ids =
    (picked MempoolEntry.modified_fee map ids, ((picked MempoolEntry.vsize map ids : ℕ) : ℤ)) := by
  unfold picked
  generalize ids.filterMap map.lookup = entries
  induction entries with
  | nil => rfl
  | cons entry entries ih =>
    simp only [List.map_cons, List.sum_cons, ih, Nat.cast_add]
    rfl

variable {m : Mempool} {txids : List Txid}

theorem Fits.in_range (h : Fits m) {ids : List Txid} (hn : ids.Nodup) :
    Representable (picked MempoolEntry.own m.map ids) := by
  have hsizes := (picked_le_total (f := MempoolEntry.vsize) (fun _ => Nat.zero_le _) m.map hn).trans_lt h.sizes
  have hamounts := (picked_le_total (f := MempoolEntry.amount) MempoolEntry.amount_nonneg m.map hn).trans_lt h.amounts
  have hfees : |picked MempoolEntry.modified_fee m.map ids| ≤ picked MempoolEntry.amount m.map ids := by
    unfold picked
    generalize ids.filterMap m.map.lookup = entries
    induction entries with
    | nil => rfl
    | cons entry entries ih =>
      rw [List.map_cons, List.sum_cons, List.map_cons, List.sum_cons]
      exact (abs_add_le _ _).trans (add_le_add (abs_saturating_add_le _ _) ih)
  rw [picked_own]
  refine ⟨hfees.trans_lt hamounts, Int.natCast_nonneg _, ?_⟩
  change ((picked MempoolEntry.vsize m.map ids : ℕ) : ℤ) < 2 ^ 63
  exact_mod_cast hsizes

theorem Fits.sums {t : Mempool} (h : Fits m) (hs : SumsOnly m t) : Fits t where
  amounts := by
    rw [hs.total _ fun _ _ => MempoolEntry.amount_of_body]
    exact h.amounts
  sizes := by
    rw [hs.total _ fun _ _ => MempoolEntry.vsize_of_body]
    exact h.sizes

theorem picked_bodies {t : Mempool} (h : ∀ id ∈ txids, t.body id = m.body id) :
    picked MempoolEntry.own t.map txids = picked MempoolEntry.own m.map txids := by
  apply picked_congr
  intro id hid
  have hbody := congrArg (Option.map MempoolEntry.own) (h id hid)
  rw [body, body, Option.map_map, Option.map_map] at hbody
  exact hbody

theorem lookup_adjust (m : Mempool) (txid : Txid) (d : ℤ × ℤ) (a : Txid) :
    (m.adjust_descendant_totals txid d.1 d.2).map.lookup a =
      if a = txid then (m.map.lookup a).map fun entry => shift_totals entry d.1 d.2 else m.map.lookup a := by
  unfold adjust_descendant_totals
  split
  · next h =>
    split
    · next heq => rw [heq, h, Option.map_none]
    · rfl
  · next entry h =>
    change (m.map.insert txid _).lookup a = _
    rw [lookup_insert_eq]
    split
    · next heq => rw [heq, h, Option.map_some]
    · rfl

theorem lookup_adjust_all (m : Mempool) (hn : txids.Nodup) (d : ℤ × ℤ) (a : Txid) :
    (m.adjust_all txids d.1 d.2).map.lookup a =
      if a ∈ txids then (m.map.lookup a).map fun entry => shift_totals entry d.1 d.2 else m.map.lookup a := by
  unfold adjust_all
  induction txids generalizing m with
  | nil => simp
  | cons txid txids ih =>
    obtain ⟨hnew, hn⟩ := List.nodup_cons.mp hn
    rw [List.foldl_cons, ih _ hn, lookup_adjust]
    by_cases ha : a = txid
    · subst ha
      simp [hnew]
    · simp [ha]

theorem adjust_all_sums (hn : txids.Nodup) {d : ℤ × ℤ} {a : Txid} {entry : MempoolEntry}
    (he : m.map.lookup a = some entry) (hr : a ∈ txids → Representable (entry.sums + d)) :
    ∃ entry', (m.adjust_all txids d.1 d.2).map.lookup a = some entry' ∧
      entry'.sums = entry.sums + if a ∈ txids then d else 0 := by
  rw [lookup_adjust_all m hn, he]
  split
  · next ha => exact ⟨_, rfl, shift_totals_sums (hr ha)⟩
  · exact ⟨entry, rfl, (add_zero _).symm⟩

theorem Fits.totals (h : Fits m) {ids : List Txid} (hn : ids.Nodup) :
    m.totals ids = picked MempoolEntry.own m.map ids := by
  unfold Mempool.totals picked
  have hpart : ∀ entries : List MempoolEntry, entries.Sublist (ids.filterMap m.map.lookup) →
      Representable (entries.map MempoolEntry.own).sum := by
    intro entries hsub
    obtain ⟨ids', hids, rfl⟩ := List.sublist_filterMap_iff.mp hsub
    exact h.in_range (hn.sublist hids)
  generalize ids.filterMap m.map.lookup = entries at hpart
  induction entries using List.reverseRecOn with
  | nil => rfl
  | append_singleton entries entry ih =>
    have hall := hpart _ (List.Sublist.refl _)
    rw [List.map_append, List.sum_append, List.map_singleton, List.sum_singleton] at hall
    rw [List.foldl_append, List.foldl_cons, List.foldl_nil, List.map_append, List.sum_append, List.map_singleton,
      List.sum_singleton, ih fun part hp => hpart part (hp.trans (List.sublist_append_left _ _))]
    generalize (entries.map MempoolEntry.own).sum = s at hall
    apply Prod.ext
    · exact saturating_add_eq hall.fee
    · apply saturating_add_eq
      have hlow := hall.size_nonneg
      have hhigh := hall.size
      change 0 ≤ s.2 + (entry.vsize : ℤ) at hlow
      change s.2 + (entry.vsize : ℤ) < 2 ^ 63 at hhigh
      rw [abs_lt]
      omega

def TotalsExact (m : Mempool) : Prop :=
  ∀ txid entry, m.map.lookup txid = some entry →
    entry.sums = picked MempoolEntry.own m.map (txid :: m.descendant_txids txid)

theorem family_nodup (h : Acyclic m) (a : Txid) : (a :: m.descendant_txids a).Nodup :=
  List.nodup_cons.mpr ⟨fun ha => h a (mem_descendant_txids.mp ha), descendant_txids_nodup m a⟩

theorem TotalsExact.same {t : Mempool} (h : TotalsExact m) (hs : SameTxs m t)
    (hown : ∀ a, (t.map.lookup a).map MempoolEntry.own = (m.map.lookup a).map MempoolEntry.own)
    (hsums : ∀ a, (t.map.lookup a).map MempoolEntry.sums = (m.map.lookup a).map MempoolEntry.sums) : TotalsExact t :=
    by
  intro a entry he
  have hsum := hsums a
  rw [he, Option.map_some] at hsum
  obtain ⟨entry', he', heq⟩ := Option.map_eq_some_iff.mp hsum.symm
  rw [← heq, h a entry' he', hs.descendant_txids]
  exact (picked_congr fun id _ => hown id).symm

section

variable [Platform]

structure Summed (ids : Identifiers) (m : Mempool) : Prop extends Lineage ids m where
  fits : Fits m
  totals : TotalsExact m

variable {ids : Identifiers} {m : Mempool}

theorem Fits.remove_inner (h : Fits m) (txid : Txid) (cause : RemovalCause) (now height : ℕ) :
    Fits (m.remove_inner txid cause now height) := by
  cases he : m.map.lookup txid with
  | none =>
    rw [remove_inner_none he]
    exact h
  | some entry =>
    apply Fits.sums _ (remove_inner_sums he cause now height)
    have hamounts := h.amounts
    have hsizes := h.sizes
    rw [total_erase he] at hamounts hsizes
    have hnonneg := entry.amount_nonneg
    exact ⟨(le_add_of_nonneg_left hnonneg).trans_lt hamounts, (Nat.le_add_left _ _).trans_lt hsizes⟩

variable {txid a : Txid} {t : Mempool}

theorem Lineage.picked_remove (h : Lineage ids m) {entry : MempoolEntry} (he : m.map.lookup txid = some entry)
    (hby : Bypassed m.Child txid) (ht : Indexes t) (hs : Shrinks m t)
    (hgone : ∀ id, t.body id = if id = txid then none else m.body id) (ha : a ≠ txid) [Decidable (m.Descends a txid)]
    :
    picked MempoolEntry.own t.map (a :: t.descendant_txids a) + (if m.Descends a txid then entry.own else 0) =
      picked MempoolEntry.own m.map (a :: m.descendant_txids a) := by
  have hchild : t.Child = Without m.Child txid := by
    funext b c
    exact propext (h.unindex_child ht hs hgone)
  have hdesc : ∀ d, t.Descends a d ↔ m.Descends a d ∧ d ≠ txid := by
    intro d
    rw [Descends, hchild, transGen_without hby ha]
  have hpicked : picked MempoolEntry.own t.map (a :: t.descendant_txids a) =
      picked MempoolEntry.own m.map (a :: t.descendant_txids a) := by
    apply picked_bodies
    intro id hid
    rw [hgone, if_neg]
    rcases List.mem_cons.mp hid with rfl | hid
    · exact ha
    · exact ((hdesc id).mp (mem_descendant_txids.mp hid)).2
  rw [hpicked]
  split
  · next hd =>
    have hperm : (m.descendant_txids a).Perm (txid :: t.descendant_txids a) := by
      apply (List.perm_ext_iff_of_nodup (descendant_txids_nodup m a) _).mpr
      · intro d
        rw [List.mem_cons, mem_descendant_txids, mem_descendant_txids, hdesc]
        constructor
        · intro hm
          by_cases heq : d = txid
          · exact Or.inl heq
          · exact Or.inr ⟨hm, heq⟩
        · rintro (rfl | ⟨hm, -⟩)
          · exact hd
          · exact hm
      · refine List.nodup_cons.mpr ⟨fun hmem => ?_, descendant_txids_nodup t a⟩
        exact ((hdesc txid).mp (mem_descendant_txids.mp hmem)).2 rfl
    rw [picked_perm _ _ (hperm.cons a), picked_perm _ _ (List.Perm.swap txid a _), picked_cons _ he, add_comm]
  · next hd =>
    have hperm : (m.descendant_txids a).Perm (t.descendant_txids a) := by
      apply (List.perm_ext_iff_of_nodup (descendant_txids_nodup m a) (descendant_txids_nodup t a)).mpr
      intro d
      rw [mem_descendant_txids, mem_descendant_txids, hdesc]
      constructor
      · intro hm
        refine ⟨hm, ?_⟩
        rintro rfl
        exact hd hm
      · exact And.left
    rw [add_zero, picked_perm _ _ (hperm.cons a)]

theorem Lineage.ancestors_unindexed (h : Lineage ids m) {entry : MempoolEntry} (he : m.map.lookup txid = some entry)
    (cause : RemovalCause) (now height : ℕ) :
    a ∈ (m.unindex txid entry).ancestors_of entry.tx ↔ m.Descends a txid := by
  have hs := Shrinks.remove_inner m txid cause now height
  have ht := h.remove_inner txid cause now height
  rw [← (remove_inner_same he cause now height).mem_ancestors_of]
  constructor
  · exact fun ha => (h.ancestors_iff he).mp (hs.ancestors_of entry.tx ha)
  · intro hd
    obtain ⟨p, hpath, hp, -⟩ := transGen_to (fun b hb => h.acyclic b hb) hd
    have hgone := fun id => remove_inner_body m txid id cause now height
    have hchild : (m.remove_inner txid cause now height).Child = Without m.Child txid := by
      funext b c
      exact propext (h.unindex_child ht.indexes hs hgone)
    refine (ht.mem_ancestors (h.in_range he)).mpr ⟨p, by rwa [hchild], ?_⟩
    obtain ⟨parent, hparent, vout, hv, hspend⟩ := mem_children.mp hp
    obtain ⟨spender, hspender, hop⟩ := (h.indexes.spends _ _).mp hspend
    cases he.symm.trans hspender
    have hne : p ≠ txid := by
      rintro rfl
      exact h.acyclic p (.single hp)
    have hbody := hgone p
    rw [if_neg hne, body_of_lookup hparent] at hbody
    obtain ⟨parent', hparent', heq⟩ := Option.map_eq_some_iff.mp hbody
    exact ⟨parent', hparent', vout, by rwa [MempoolEntry.tx_of_body heq], hop⟩

theorem Summed.remove_inner (h : Summed ids m) (hby : Bypassed m.Child txid) (cause : RemovalCause)
    (now height : ℕ) : Summed ids (m.remove_inner txid cause now height) := by
  refine ⟨h.toLineage.remove_inner txid cause now height, h.fits.remove_inner txid cause now height, ?_⟩
  cases he : m.map.lookup txid with
  | none =>
    rw [remove_inner_none he]
    exact h.totals
  | some entry =>
    classical
    have hlineage := h.toLineage.remove_inner txid cause now height
    have hfits := h.fits.remove_inner txid cause now height
    have hgone := fun id => remove_inner_body m txid id cause now height
    have hshrinks := Shrinks.remove_inner m txid cause now height
    intro a after hafter
    have ha : a ≠ txid := by
      rintro rfl
      have hbody := hgone a
      rw [if_pos rfl, body_of_lookup hafter] at hbody
      cases hbody
    have hsum := h.toLineage.picked_remove he hby hlineage.indexes hshrinks hgone ha
    have hrange := hfits.in_range (family_nodup hlineage.acyclic a)
    generalize hpart : picked MempoolEntry.own (m.remove_inner txid cause now height).map
      (a :: (m.remove_inner txid cause now height).descendant_txids a) = part at hsum hrange ⊢
    obtain ⟨before, hbefore, -⟩ := hshrinks.lookup hafter
    have hunindex : (m.unindex txid entry).map.lookup a = some before := by
      change (m.map.erase txid).lookup a = _
      rw [lookup_erase_eq, if_neg ha, hbefore]
    have hmap : (m.remove_inner txid cause now height).map = ((m.unindex txid entry).adjust_all
        ((m.unindex txid entry).ancestors_of entry.tx) (-entry.own).1 (-entry.own).2).map := by
      unfold Mempool.remove_inner
      rw [he]
      rfl
    have hshift : a ∈ (m.unindex txid entry).ancestors_of entry.tx → before.sums + -entry.own = part := by
      intro hmem
      rw [h.totals a before hbefore, ← hsum, if_pos ((h.toLineage.ancestors_unindexed he cause now height).mp hmem)]
      abel
    obtain ⟨after', hafter', hsums⟩ := adjust_all_sums (ancestors_of_nodup _ _) hunindex fun hmem =>
      (hshift hmem).symm ▸ hrange
    rw [hmap, hafter'] at hafter
    cases hafter
    rw [hsums]
    split
    · next hmem => exact hshift hmem
    · next hmem =>
      rw [h.toLineage.ancestors_unindexed he cause now height] at hmem
      rw [h.totals a before hbefore, ← hsum, if_neg hmem, add_zero, add_zero]

variable {x : Txid}

theorem Lineage.family_old (h : Lineage ids m) (hx : m.map.lookup x = none) (ha : m.body a ≠ none) :
    ∀ id ∈ a :: m.descendant_txids a, id ≠ x := by
  rintro id hid rfl
  refine absurd (body_eq_none.mpr hx) ?_
  rcases List.mem_cons.mp hid with rfl | hid
  · exact ha
  · exact h.indexes.descends_pooled (mem_descendant_txids.mp hid)

theorem Lineage.picked_old (h : Lineage ids m) (hx : m.map.lookup x = none) (entry : MempoolEntry)
    (ha : m.body a ≠ none) : picked MempoolEntry.own (m.index x entry).map (a :: m.descendant_txids a) =
      picked MempoolEntry.own m.map (a :: m.descendant_txids a) := by
  apply picked_bodies
  intro id hid
  rw [index_body, if_neg (h.family_old hx ha id hid)]

theorem Lineage.picked_index (h : Lineage ids m) {entry before : MempoolEntry} (he : Entrant ids m entry)
    (ha : m.map.lookup a = some before)
    (honce : a ∈ m.ancestors_of entry.tx → ∀ d, m.Brings entry.tx d → ¬ m.Descends a d) :
    picked MempoolEntry.own (m.index (Platform.txid entry.tx) entry).map
        (a :: (m.index (Platform.txid entry.tx) entry).descendant_txids a) =
      picked MempoolEntry.own m.map (a :: m.descendant_txids a) +
        if a ∈ m.ancestors_of entry.tx then
          picked MempoolEntry.own (m.index (Platform.txid entry.tx) entry).map
            (Platform.txid entry.tx :: (m.index (Platform.txid entry.tx) entry).descendant_txids
              (Platform.txid entry.tx))
        else 0 := by
  have hbelow := fun d => h.below_entrant he (d := d)
  have hu := h.index he
  have hpooled : m.body a ≠ none := by
    rw [body_of_lookup ha]
    exact Option.some_ne_none _
  have hfamily := h.family_old he.fresh hpooled
  have hold := h.picked_old he.fresh entry hpooled
  have hbeside := fun d => h.beside_entrant he (hfamily a List.mem_cons_self) (d := d)
  generalize hx : Platform.txid entry.tx = x at *
  split
  · next hanc =>
    have hperm : ((m.index x entry).descendant_txids a).Perm
        (m.descendant_txids a ++ x :: (m.index x entry).descendant_txids x) := by
      apply (List.perm_ext_iff_of_nodup (descendant_txids_nodup _ a) _).mpr
      · intro d
        rw [List.mem_append, List.mem_cons, mem_descendant_txids, mem_descendant_txids, mem_descendant_txids, hbelow,
          hbeside]
        simp only [hanc, true_and]
      · apply (descendant_txids_nodup m a).append (family_nodup hu.acyclic x)
        intro d hd hd'
        rcases List.mem_cons.mp hd' with rfl | hd'
        · exact hfamily d (List.mem_cons_of_mem a hd) rfl
        · rw [mem_descendant_txids] at hd hd'
          exact honce hanc d ((hbelow d).mp hd') hd
    rw [picked_perm _ _ (hperm.cons a), ← List.cons_append, picked_append, hold]
  · next hanc =>
    have hperm : ((m.index x entry).descendant_txids a).Perm (m.descendant_txids a) := by
      apply (List.perm_ext_iff_of_nodup (descendant_txids_nodup _ a) (descendant_txids_nodup m a)).mpr
      intro d
      rw [mem_descendant_txids, mem_descendant_txids, hbeside]
      simp only [hanc, false_and, or_false]
    rw [picked_perm _ _ (hperm.cons a), hold, add_zero]

omit [Platform] in
theorem adjust_sums {d : ℤ × ℤ} {entry : MempoolEntry} (he : m.map.lookup a = some entry)
    (hr : a = txid → Representable (entry.sums + d)) :
    ∃ entry', (m.adjust_descendant_totals txid d.1 d.2).map.lookup a = some entry' ∧
      entry'.sums = entry.sums + if a = txid then d else 0 := by
  rw [lookup_adjust, he]
  split
  · next ha => exact ⟨_, rfl, shift_totals_sums (hr ha)⟩
  · exact ⟨entry, rfl, (add_zero _).symm⟩

variable {ancestors : List Txid}

omit [Platform] in
theorem count_existing_sums (hfits : Fits m) {root : MempoolEntry} (hroot : m.map.lookup txid = some root)
    (hn : ancestors.Nodup) (hnot : txid ∉ ancestors) {entry : MempoolEntry} (ha : m.map.lookup a = some entry)
    (hr : a = txid ∨ a ∈ ancestors →
      Representable (entry.sums + picked MempoolEntry.own m.map (m.descendant_txids txid))) :
    ∃ entry', (m.count_existing txid root.tx.outputs.length ancestors).map.lookup a = some entry' ∧
      entry'.sums = entry.sums +
        if a = txid ∨ a ∈ ancestors then picked MempoolEntry.own m.map (m.descendant_txids txid) else 0 := by
  unfold Mempool.count_existing
  split
  · rw [hfits.totals (descendant_txids_nodup m txid)]
    generalize picked MempoolEntry.own m.map (m.descendant_txids txid) = extra at hr
    obtain ⟨mid, hmid, hmsums⟩ := adjust_sums (d := extra) ha fun heq => hr (Or.inl heq)
    by_cases heq : a = txid
    · subst heq
      obtain ⟨final, hfinal, hfsums⟩ := adjust_all_sums (d := extra) hn hmid fun hmem => absurd hmem hnot
      refine ⟨final, hfinal, ?_⟩
      rw [hfsums, hmsums, if_pos rfl, if_neg hnot, if_pos (Or.inl rfl), add_zero]
    · rw [if_neg heq, add_zero] at hmsums
      obtain ⟨final, hfinal, hfsums⟩ := adjust_all_sums (d := extra) hn hmid fun hmem => by
        rw [hmsums]
        exact hr (Or.inr hmem)
      refine ⟨final, hfinal, ?_⟩
      rw [hfsums, hmsums]
      simp only [heq, false_or]
  · next hnone =>
    have hempty : m.descendant_txids txid = [] := by
      apply List.eq_nil_iff_forall_not_mem.mpr
      intro d hd
      obtain ⟨b, hb, -⟩ := TransGen.head'_iff.mp (mem_descendant_txids.mp hd)
      obtain ⟨root', hroot', vout, hv, hs⟩ := mem_children.mp hb
      cases hroot.symm.trans hroot'
      apply hnone
      apply List.any_eq_true.mpr
      exact ⟨vout, List.mem_range.mpr hv, by rw [hs]; rfl⟩
    refine ⟨entry, ha, ?_⟩
    rw [hempty]
    exact (add_zero _).symm.trans (by split <;> rfl)

omit [Platform] in
theorem propagate_sums {u : Mempool} (hfits : Fits u) {entry : MempoolEntry} (hentry : u.map.lookup x = some entry)
    (hn : ancestors.Nodup) (hnot : x ∉ ancestors) {row : MempoolEntry} (ha : u.map.lookup a = some row)
    (hown : a ∈ ancestors → Representable (row.sums + entry.own))
    (hextra : a = x ∨ a ∈ ancestors → Representable
      (row.sums + (if a ∈ ancestors then entry.own else 0) + picked MempoolEntry.own u.map (u.descendant_txids x))) :
    ∃ final, (((u.resync_score_index x none).adjust_all ancestors entry.own.1 entry.own.2).count_existing x
        entry.tx.outputs.length ancestors).map.lookup a = some final ∧
      final.sums = row.sums + (if a ∈ ancestors then entry.own else 0) +
        if a = x ∨ a ∈ ancestors then picked MempoolEntry.own u.map (u.descendant_txids x) else 0 := by
  have hstep : ∀ {b : Txid} {row : MempoolEntry}, u.map.lookup b = some row →
      (b ∈ ancestors → Representable (row.sums + entry.own)) → ∃ row',
        ((u.resync_score_index x none).adjust_all ancestors entry.own.1 entry.own.2).map.lookup b = some row' ∧
          row'.sums = row.sums + if b ∈ ancestors then entry.own else 0 := fun hrow hr =>
    adjust_all_sums (m := u.resync_score_index x none) hn hrow hr
  have hsums : SumsOnly u ((u.resync_score_index x none).adjust_all ancestors entry.own.1 entry.own.2) :=
    (SumsOnly.resync _ _ _).trans (.adjust_all _ _ _ _)
  generalize (u.resync_score_index x none).adjust_all ancestors entry.own.1 entry.own.2 = mid at *
  obtain ⟨root, hroot, -⟩ := hstep hentry fun hmem => absurd hmem hnot
  have htx : entry.tx = root.tx := by
    obtain ⟨e, he, htx, -⟩ := hsums.same_txs.lookup hroot
    cases hentry.symm.trans he
    exact htx
  obtain ⟨row', hrow', hrsums⟩ := hstep ha hown
  rw [← hrsums] at hextra ⊢
  rw [htx, ← picked_bodies fun id _ => hsums.body id, ← hsums.same_txs.descendant_txids] at *
  exact count_existing_sums (hfits.sums hsums) hroot hn hnot hrow' hextra

variable {tx : Transaction} {cs : Chainstate}

theorem Summed.pool_entry (h : Summed ids m) {c : Candidate} {now : ℕ} (he : Entrant ids m (m.entry_of tx cs c now))
    (hfee : c.modified_fee = saturating_add c.fee ((m.deltas.lookup (Platform.txid tx)).getD 0))
    (hn : c.ancestors.Nodup) (hnot : Platform.txid tx ∉ c.ancestors)
    (hkept : ∀ a, m.body a ≠ none → (a ∈ c.ancestors ↔ a ∈ m.ancestors_of tx))
    (hfits : Fits (m.index (Platform.txid tx) (m.entry_of tx cs c now)))
    (honce : ∀ a ∈ m.ancestors_of tx, ∀ d, m.Brings tx d → ¬ m.Descends a d) :
    Summed ids (m.pool_entry tx cs c now) := by
  have hindex : Lineage ids (m.index (Platform.txid tx) (m.entry_of tx cs c now)) := h.toLineage.index he
  have hall := SumsOnly.pool_entry m tx cs c now
  refine ⟨hindex.same hall.same_txs, hfits.sums hall, ?_⟩
  have hown : (m.entry_of tx cs c now).own = (c.modified_fee, (c.vsize : ℤ)) := by
    rw [hfee]
    rfl
  have hsums : (m.entry_of tx cs c now).sums = (m.entry_of tx cs c now).own := by
    rw [hown]
    rfl
  have hfinal : m.pool_entry tx cs c now = (((m.index (Platform.txid tx) (m.entry_of tx cs c
      now)).resync_score_index (Platform.txid tx) none).adjust_all c.ancestors (m.entry_of tx cs c now).own.1
        (m.entry_of tx cs c now).own.2).count_existing (Platform.txid tx) (m.entry_of tx cs c now).tx.outputs.length
          c.ancestors := by
    rw [hown]
    rfl
  have htx : (m.entry_of tx cs c now).tx = tx := rfl
  generalize m.entry_of tx cs c now = entry at *
  subst htx
  intro a after hafter
  rw [picked_bodies fun id _ => hall.body id, hall.same_txs.descendant_txids]
  have hbody := hall.body a
  rw [body_of_lookup hafter, index_body] at hbody
  rw [hfinal] at hafter
  have hentry : (m.index (Platform.txid entry.tx) entry).map.lookup (Platform.txid entry.tx) = some entry := by
    change (m.map.insert _ _).lookup _ = _
    rw [lookup_insert_eq, if_pos rfl]
  have hrange := hfits.in_range (family_nodup hindex.acyclic a)
  have hxsum := picked_cons MempoolEntry.own hentry
    ((m.index (Platform.txid entry.tx) entry).descendant_txids (Platform.txid entry.tx))
  by_cases hax : a = Platform.txid entry.tx
  · subst hax
    rw [hxsum] at hrange ⊢
    obtain ⟨final, hfinal, hfsums⟩ :=
      propagate_sums hfits hentry hn hnot hentry (fun hmem => absurd hmem hnot) fun _ => by
      rw [if_neg hnot, add_zero, hsums]
      exact hrange
    cases hafter.symm.trans hfinal
    rw [hfsums, if_neg hnot, if_pos (Or.inl rfl), add_zero, hsums]
  · rw [if_neg hax] at hbody
    obtain ⟨before, hbefore, -⟩ := Option.map_eq_some_iff.mp hbody.symm
    have hpooled : m.body a ≠ none := by
      rw [← hbody]
      exact Option.some_ne_none _
    have hsame : (m.index (Platform.txid entry.tx) entry).map.lookup a = some before := by
      change (m.map.insert _ _).lookup _ = _
      rw [lookup_insert_eq, if_neg hax, hbefore]
    have hpicked := h.toLineage.picked_index he hbefore fun ha => honce a ha
    rw [← h.totals a before hbefore, hxsum] at hpicked
    rw [hpicked] at hrange ⊢
    have hfamily := h.toLineage.family_old he.fresh hpooled
    have hnodup : (Platform.txid entry.tx :: a :: m.descendant_txids a).Nodup :=
      List.nodup_cons.mpr ⟨fun hmem => hfamily _ hmem rfl, family_nodup h.toLineage.acyclic a⟩
    have hone : Representable (before.sums + entry.own) := by
      have hr := hfits.in_range hnodup
      rw [picked_cons _ hentry, h.toLineage.picked_old he.fresh _ hpooled, ← h.totals a before hbefore,
        add_comm] at hr
      exact hr
    by_cases hanc : a ∈ c.ancestors
    · rw [if_pos ((hkept a hpooled).mp hanc), ← add_assoc] at hrange ⊢
      obtain ⟨final, hfinal, hfsums⟩ := propagate_sums hfits hentry hn hnot hsame (fun _ => hone) fun _ => by
        rw [if_pos hanc]
        exact hrange
      cases hafter.symm.trans hfinal
      rw [hfsums, if_pos hanc, if_pos (Or.inr hanc)]
    · have hno : ¬(a = Platform.txid entry.tx ∨ a ∈ c.ancestors) := fun hor => hor.elim hax hanc
      rw [if_neg fun hmem => hanc ((hkept a hpooled).mpr hmem)]
      obtain ⟨final, hfinal, hfsums⟩ := propagate_sums hfits hentry hn hnot hsame (fun _ => hone) fun hor =>
        absurd hor hno
      cases hafter.symm.trans hfinal
      rw [hfsums, if_neg hanc, if_neg hno, add_zero]

theorem Summed.new : Summed ids Mempool.new where
  toLineage := .new
  fits := ⟨by decide, by decide⟩
  totals := fun _ _ h => by cases h

theorem Summed.quiet (h : Summed ids m) (hs : SameEntries m t) : Summed ids t where
  toLineage := h.toLineage.same hs.same_txs
  fits := by
    obtain ⟨hamounts, hsizes⟩ := h.fits
    rw [← hs.map] at hamounts hsizes
    exact ⟨hamounts, hsizes⟩
  totals := h.totals.same hs.same_txs (fun a => by rw [hs.map]) fun a => by rw [hs.map]

theorem Summed.remove_recursive (h : Summed ids m) (txid : Txid) (cause : RemovalCause) (now height : ℕ) :
    Summed ids (m.remove_recursive_inner txid cause now height) := by
  apply remove_walk_childless (P := Summed ids) (fun h => h.indexes) (fun h => h.toLineage.acyclic)
  · intro t id ht hnone
    apply ht.remove_inner
    apply Bypassed.of_sink
    intro b hb
    rw [Child, Succ, hnone] at hb
    cases hb
  · exact h
  · exact Nat.lt_succ_of_le (h.indexes.descendants_le txid)

theorem Summed.remove_each (h : Summed ids m) (txids : List Txid) (cause : RemovalCause) (now height : ℕ) :
    Summed ids (m.remove_each txids cause now height) := by
  unfold Mempool.remove_each
  induction txids generalizing m with
  | nil => exact h
  | cons txid txids ih => exact ih (h.remove_recursive txid cause now height)

theorem Summed.remove_dependents (hnamed : ids.Names tx) : DropsDependents (Summed ids) tx := by
  intro m now height h
  have hs := Shrinks.remove_each m (m.dependents tx) .ReorgDrop now height
  have hsum := h.remove_each (m.dependents tx) .ReorgDrop now height
  apply hsum.remove_inner
  apply Bypassed.of_sink
  intro b hb
  obtain ⟨entry, he, vout, hv, hspend⟩ := mem_children.mp hb
  have hmem : b ∈ m.dependents tx := by
    apply List.mem_filterMap.mpr
    refine ⟨vout, ?_, ?_⟩
    · rw [List.mem_range, hnamed.outputs, ← hsum.indexes.keyed he, ← (hsum.named he).outputs]
      exact hv
    · rcases hs.spends ⟨Platform.txid tx, vout⟩ with hn | hn
      · rw [hn] at hspend
        cases hspend
      · rw [← hn, hspend]
  exact hsum.indexes.child_pooled hb (remove_each_gone hmem)

variable [PoolPolicy]

structure CountsOnce (ids : Identifiers) (a : Attempt) : Prop where
  named : ids.Names a.tx
  covered : ids.Covers a.cs
  fits : ∀ c, a.pool.examine a.tx a.cs a.now = .ok c →
    total MempoolEntry.amount a.pool.map + |c.fee| + |(a.pool.deltas.lookup (Platform.txid a.tx)).getD 0| < 2 ^ 63 ∧
      total MempoolEntry.vsize a.pool.map + c.vsize < 2 ^ 63
  kept : ∀ c high t, a.pool.examine a.tx a.cs a.now = .ok c →
    a.pool.trim c a.tx.encode.length a.now (a.pool.len + 1) none = (some high, t) →
    ∀ id ∈ a.pool.ancestors_of a.tx, t.body id ≠ none → id ∈ t.ancestors_of a.tx
  once : ∀ c high t, a.pool.examine a.tx a.cs a.now = .ok c →
    a.pool.trim c a.tx.encode.length a.now (a.pool.len + 1) none = (some high, t) →
    ∀ id ∈ (t.entered a.tx c a.now high).ancestors_of a.tx, ∀ d, (t.entered a.tx c a.now high).Brings a.tx d →
      ¬ (t.entered a.tx c a.now high).Descends id d

omit [Platform] [PoolPolicy] in
theorem total_shrinks {M : Type} [AddCommMonoid M] [PartialOrder M] [IsOrderedAddMonoid M] {f : MempoolEntry → M}
    (hf : ∀ e, 0 ≤ f e) (hbody : ∀ e e' : MempoolEntry, e.body = e'.body → f e = f e') (hs : Shrinks m t) :
    total f t.map ≤ total f m.map := by
  have hpicked : picked f t.map t.map.keys = picked f m.map t.map.keys := by
    apply picked_congr
    intro id hid
    obtain ⟨entry, he⟩ := Option.isSome_iff_exists.mp (mem_keys_iff.mp hid)
    obtain ⟨entry', he', heq⟩ := hs.lookup he
    rw [he, he', Option.map_some, Option.map_some, hbody _ _ heq]
  rw [total_eq_picked, hpicked]
  exact picked_le_total hf m.map t.map.nodupKeys

theorem Summed.enter (h : Summed ids m) {c : Candidate} {now : ℕ} (hok : CountsOnce ids ⟨m, tx, cs, now⟩)
    (hexamine : m.examine tx cs now = .ok c) :
    Summed ids (m.enter tx cs c now).2 := by
  have hc := examine_ok hexamine
  have htrim : Summed ids (m.trim c tx.encode.length now (m.len + 1) none).2 :=
    trim_keeps (P := Summed ids) (fun _ id ht => ht.remove_recursive id _ _ _) _ none h
  have hs := Shrinks.trim c tx.encode.length now (m.len + 1) none m
  cases hrun : m.enter tx cs c now with
  | mk r t =>
    cases r with
    | error e =>
      rw [enter_error hrun] at htrim
      exact htrim
    | ok id =>
      obtain ⟨high, trimmed, heq, rfl⟩ := enter_ok hrun
      rw [heq] at htrim hs
      have hentered : Summed ids (trimmed.entered tx c now high) :=
        (htrim.quiet (raise_rolling_fee_same trimmed high now)).remove_each c.conflicts _ now c.next_height
      have hshrinks : Shrinks m (trimmed.entered tx c now high) := Shrinks.entered heq
      have hrest : Shrinks trimmed (trimmed.entered tx c now high) :=
        (Shrinks.raise_rolling_fee trimmed high now).trans (.remove_each _ _ _ _ _)
      have hrange : ∀ input ∈ tx.inputs, input.previous_output.vout < ids.outputs input.previous_output.txid :=
        fun input hinput => h.toLineage.resolve_in_range hok.covered (resolve_inputs_some hc.spent input hinput)
      have hfresh := entered_fresh hexamine heq
      apply hentered.pool_entry
      · exact ⟨hok.named, hrange, hfresh, entered_spends hexamine heq hentered.indexes, rfl⟩
      · rw [hshrinks.deltas]
        exact hc.modified_fee
      · rw [hc.ancestors]
        exact ancestors_of_nodup m tx
      · rw [hc.ancestors]
        exact fun hmem => ancestors_pooled hmem hc.fresh
      · intro a ha
        rw [hc.ancestors]
        constructor
        · intro hmem
          apply entered_ancestors hc hs htrim.indexes htrim.toLineage.acyclic
          apply hok.kept c high trimmed hexamine heq a hmem
          intro hgone
          rcases hrest.body a with hb | hb
          · exact ha hb
          · exact ha (hb.trans hgone)
        · exact fun hmem => hshrinks.ancestors_of tx hmem
      · obtain ⟨hamounts, hsizes⟩ := hok.fits c hexamine
        have hold := total_shrinks MempoolEntry.amount_nonneg (fun _ _ => MempoolEntry.amount_of_body) hshrinks
        have hold' := total_shrinks (fun _ => Nat.zero_le _) (fun _ _ => MempoolEntry.vsize_of_body) hshrinks
        have hamount : ((trimmed.entered tx c now high).entry_of tx cs c now).amount =
            |c.fee| + |(m.deltas.lookup (Platform.txid tx)).getD 0| := by
          rw [← hshrinks.deltas]
          rfl
        constructor
        · change total _ ((trimmed.entered tx c now high).map.insert _ _) < _
          rw [total_insert_fresh hfresh, hamount]
          linarith only [hamounts, hold]
        · change total _ ((trimmed.entered tx c now high).map.insert _ _) < _
          rw [total_insert_fresh hfresh, Nat.add_comm]
          exact (Nat.add_le_add_right hold' _).trans_lt hsizes
      · exact hok.once c high trimmed hexamine heq

theorem Summed.admits : Admits (Summed ids) (CountsOnce ids) where
  quiet hs _ h := h.quiet hs
  remove_recursive txid cause now height h := h.remove_recursive txid cause now height
  enter _ _ _ _ h hok hc := h.enter hok hc

def DeltasHeld (m : Mempool) : Prop :=
  ∀ txid entry, m.map.lookup txid = some entry → entry.fee_delta = (m.deltas.lookup txid).getD 0

omit [Platform] [PoolPolicy] in
theorem fee_delta_of_body (h : e.body = e'.body) : e.fee_delta = e'.fee_delta :=
  (congrArg MempoolEntry.fee_delta h : e.body.fee_delta = e'.body.fee_delta)

omit [Platform] [PoolPolicy] in
theorem DeltasHeld.shrinks (h : DeltasHeld m) (hs : Shrinks m t) : DeltasHeld t := by
  intro txid entry he
  obtain ⟨entry', he', hbody⟩ := hs.lookup he
  rw [hs.deltas, ← fee_delta_of_body hbody]
  exact h txid entry' he'

omit [Platform] [PoolPolicy] in
theorem DeltasHeld.sums (h : DeltasHeld m) (hs : SumsOnly m t) : DeltasHeld t := by
  intro txid entry he
  obtain ⟨entry', he', hbody⟩ := lookup_of_body (hs.body txid) he
  rw [hs.rest, ← fee_delta_of_body hbody]
  exact h txid entry' he'

theorem DeltasHeld.admits : Admits DeltasHeld fun _ => True where
  quiet hs hdeltas h txid entry he := by
    rw [hs.map] at he
    rw [hdeltas]
    exact h txid entry he
  remove_recursive txid cause now height h := h.shrinks (.remove_recursive _ txid cause now height)
  enter {m} tx cs c now h _ _ := by
    have hs := Shrinks.trim c tx.encode.length now (m.len + 1) none m
    cases hrun : m.enter tx cs c now with
    | mk r t =>
      cases r with
      | error e =>
        rw [enter_error hrun] at hs
        exact h.shrinks hs
      | ok id =>
        obtain ⟨high, trimmed, heq, rfl⟩ := enter_ok hrun
        have hentered := h.shrinks (Shrinks.entered heq)
        apply DeltasHeld.sums _ (SumsOnly.pool_entry _ tx cs c now)
        intro id entry he
        change ((trimmed.entered tx c now high).map.insert _ _).lookup id = _ at he
        rw [lookup_insert_eq] at he
        split at he
        · next hid =>
          cases he
          rw [hid]
          rfl
        · exact hentered id entry he

omit [PoolPolicy] in
theorem DeltasHeld.on_block_connected (h : DeltasHeld m) (block : Block) (conf_height : ℕ) :
    DeltasHeld (m.on_block_connected block conf_height) := by
  intro id entry he
  unfold Mempool.on_block_connected at he ⊢
  have hs := remove_rows_shrinks 0 conf_height (block.transactions.flatMap m.dead_by)
    { m with block_since_rolling_fee_bump := true,
             deltas := eraseAll m.deltas (block.transactions.map Platform.txid) }
  have hgone : ∀ row ∈ block.transactions.flatMap m.dead_by, _ := fun row hrow =>
    @remove_rows_gone _ 0 conf_height _ row hrow
      { m with block_since_rolling_fee_bump := true,
               deltas := eraseAll m.deltas (block.transactions.map Platform.txid) }
  rw [hs.deltas, lookup_eraseAll]
  obtain ⟨entry', he', hbody⟩ := hs.lookup he
  rw [if_neg, ← fee_delta_of_body hbody]
  · exact h id entry' he'
  · intro hmem
    obtain ⟨tx, htx, rfl⟩ := List.mem_map.mp hmem
    have hrow : (Platform.txid tx, RemovalCause.Confirmed) ∈ block.transactions.flatMap m.dead_by := by
      apply List.mem_flatMap.mpr
      refine ⟨tx, htx, List.mem_append_left _ ?_⟩
      have hc : m.contains (Platform.txid tx) = true := by
        rw [contains]
        exact Option.isSome_iff_exists.mpr ⟨entry', he'⟩
      rw [if_pos hc]
      exact List.mem_singleton_self _
    have hnone := hgone _ hrow
    rw [body_of_lookup he] at hnone
    cases hnone

def prioritised (m : Mempool) (txid : Txid) (entry : MempoolEntry) (delta : ℤ) : Mempool :=
  { m with
    deltas := m.deltas.insert txid (saturating_add ((m.deltas.lookup txid).getD 0) delta)
    map := m.map.insert txid { entry with
      fee_delta := saturating_add ((m.deltas.lookup txid).getD 0) delta
      fees_with_descendants := saturating_add entry.fees_with_descendants delta } }

omit [Platform] [PoolPolicy] in
theorem prioritise_some {entry : MempoolEntry} (h : m.map.lookup txid = some entry) (delta : ℤ) :
    m.prioritise txid delta = ((m.prioritised txid entry delta).resync_score_index txid
      (some (effective_score entry))).adjust_all (m.ancestors_of entry.tx) delta 0 := by
  unfold prioritise
  dsimp only
  rw [h]
  rfl

omit [Platform] [PoolPolicy] in
theorem prioritise_none (h : m.map.lookup txid = none) (delta : ℤ) : m.prioritise txid delta =
      { m with deltas := m.deltas.insert txid (saturating_add ((m.deltas.lookup txid).getD 0) delta) } := by
  unfold prioritise
  dsimp only
  rw [h]

omit [Platform] [PoolPolicy] in
theorem DeltasHeld.prioritise (h : DeltasHeld m) (txid : Txid) (delta : ℤ) :
    DeltasHeld (m.prioritise txid delta) := by
  cases he : m.map.lookup txid with
  | none =>
    rw [prioritise_none he]
    intro id entry hid
    rw [lookup_insert_eq, if_neg]
    · exact h id entry hid
    · rintro rfl
      rw [he] at hid
      cases hid
  | some entry =>
    rw [prioritise_some he]
    apply DeltasHeld.sums _ ((SumsOnly.resync _ _ _).trans (.adjust_all _ _ _ _))
    intro id row hid
    change (m.map.insert txid _).lookup id = _ at hid
    change row.fee_delta = ((m.deltas.insert txid _).lookup id).getD 0
    rw [lookup_insert_eq] at hid ⊢
    split at hid
    · next heq =>
      cases hid
      rw [if_pos heq]
      rfl
    · next hne =>
      rw [if_neg hne]
      exact h id row hid

theorem DeltasHeld.edits (h : DeltasHeld m) {op : PoolOp} (hop : op.edits) : DeltasHeld (op.apply m) := by
  cases op with
  | accept_tx | expire | remove_recursive | on_block_connected | reinsert_disconnected | refill_from_disconnected =>
    cases hop
  | remove txid => exact h.shrinks (.remove_inner m txid .Explicit 0 0)
  | mark_unbroadcast txid => exact h
  | clear_unbroadcast txid => exact h
  | configure settings => exact h
  | restore txid time first_seen_height =>
    change DeltasHeld (m.restore txid time first_seen_height)
    unfold restore
    split
    · exact h
    · next entry he =>
      intro id row hid
      rw [lookup_insert_eq] at hid
      split at hid
      · next heq =>
        cases hid
        exact heq ▸ h txid entry he
      · exact h id row hid
  | prioritise txid delta => exact h.prioritise txid delta

theorem DeltasHeld.run (h : Reachable m) : DeltasHeld m := by
  induction h with
  | new => exact fun _ _ he => by cases he
  | @step m _ op _ ih =>
    apply DeltasHeld.admits.apply ih (fun _ _ => trivial)
    · intro tx _ t now height ht
      exact ht.shrinks ((Shrinks.remove_each _ _ _ _ _).trans (.remove_inner _ _ _ _ _))
    · rintro block conf_height rfl
      exact ih.on_block_connected block conf_height
    · exact ih.edits

omit [Platform] [PoolPolicy] in
theorem Fits.entry (h : Fits m) {entry : MempoolEntry} (he : m.map.lookup txid = some entry) :
    entry.modified_fee = entry.fee + entry.fee_delta ∧ entry.amount ≤ total MempoolEntry.amount m.map := by
  have hle := picked_le_total (f := MempoolEntry.amount) MempoolEntry.amount_nonneg m.map (List.nodup_singleton txid)
  rw [picked_cons _ he] at hle
  change entry.amount + 0 ≤ _ at hle
  rw [add_zero] at hle
  refine ⟨saturating_add_eq ?_, hle⟩
  exact (abs_add_le _ _).trans_lt (hle.trans_lt h.amounts)

omit [PoolPolicy] in
theorem Summed.prioritise (h : Summed ids m) (hd : DeltasHeld m) (txid : Txid) {delta : ℤ}
    (hroom : total MempoolEntry.amount m.map + |delta| < 2 ^ 63) : Summed ids (m.prioritise txid delta) := by
  cases he : m.map.lookup txid with
  | none =>
    rw [prioritise_none he]
    exact h.quiet ⟨rfl, rfl, rfl, rfl, rfl, rfl, rfl, rfl⟩
  | some entry =>
    obtain ⟨hmodified, hamount⟩ := h.fits.entry he
    rw [show entry.amount = |entry.fee| + |entry.fee_delta| from rfl] at hamount
    have habs := abs_add_le entry.fee_delta delta
    have hfee := abs_nonneg entry.fee
    have hsum := abs_add_le entry.fee (entry.fee_delta + delta)
    have hnew : saturating_add ((m.deltas.lookup txid).getD 0) delta = entry.fee_delta + delta := by
      rw [← hd txid entry he]
      apply saturating_add_eq
      linarith
    have hsame : SameTxs m (m.prioritised txid entry delta) := .write he rfl rfl rfl rfl rfl rfl rfl
    have hsums : SumsOnly (m.prioritised txid entry delta) (m.prioritise txid delta) := by
      rw [prioritise_some he]
      exact (SumsOnly.resync _ _ _).trans (.adjust_all _ _ _ _)
    have hall := hsame.trans hsums.same_txs
    -- The entry's own part moves by the delta.
    obtain ⟨entry', hmap, hown, hamount', hvsize, hfees, hsize⟩ : ∃ entry' : MempoolEntry,
        (m.prioritised txid entry delta).map = m.map.insert txid entry' ∧ entry'.own = entry.own + (delta, 0) ∧
        entry'.amount ≤ entry.amount + |delta| ∧ entry'.vsize = entry.vsize ∧
        entry'.fees_with_descendants = saturating_add entry.fees_with_descendants delta ∧
        entry'.size_with_descendants = entry.size_with_descendants := by
      refine ⟨_, rfl, ?_, ?_, rfl, rfl, rfl⟩
      · unfold MempoolEntry.own
        rw [hmodified]
        unfold MempoolEntry.modified_fee
        rw [hnew, saturating_add_eq, Prod.mk_add_mk, add_zero, add_assoc]
        linarith
      · unfold MempoolEntry.amount
        rw [hnew]
        linarith
    have hfits : Fits (m.prioritise txid delta) := by
      apply Fits.sums _ hsums
      constructor
      · rw [hmap, total_insert]
        rw [total_erase he] at hroom
        linarith
      · rw [hmap, total_insert_same he hvsize]
        exact h.fits.sizes
    refine ⟨h.toLineage.same hall, hfits, fun a after hafter => ?_⟩
    have hrange := hfits.in_range (family_nodup (h.toLineage.same hall).acyclic a)
    rw [picked_bodies (fun id _ => hsums.body id), hall.descendant_txids, hmap,
      picked_insert he hown (family_nodup h.toLineage.acyclic a)] at hrange ⊢
    have hfamily : txid ∈ a :: m.descendant_txids a ↔ a = txid ∨ a ∈ m.ancestors_of entry.tx := by
      rw [List.mem_cons, mem_descendant_txids, h.toLineage.ancestors_iff he, eq_comm]
    have hself : txid ∉ m.ancestors_of entry.tx := fun hmem =>
      h.toLineage.acyclic txid ((h.toLineage.ancestors_iff he).mp hmem)
    rw [prioritise_some he] at hafter
    have hstep : ∀ {row : MempoolEntry}, (m.prioritised txid entry delta).map.lookup a = some row → _ :=
      fun {row} => @adjust_all_sums ((m.prioritised txid entry delta).resync_score_index txid
        (some (effective_score entry))) _ (ancestors_of_nodup m entry.tx) (delta, 0) a row
    rw [hmap, lookup_insert_eq] at hstep
    by_cases ha : a = txid
    · subst ha
      rw [if_pos (hfamily.mpr (Or.inl rfl)), ← h.totals a entry he] at hrange ⊢
      obtain ⟨final, hfinal, hfsums⟩ := hstep (if_pos rfl) fun hmem => absurd hmem hself
      cases hafter.symm.trans hfinal
      rw [hfsums, if_neg hself, add_zero]
      have hexact : saturating_add entry.fees_with_descendants delta = entry.fees_with_descendants + delta :=
        saturating_add_eq hrange.fee
      unfold MempoolEntry.sums
      rw [hfees, hsize, hexact, Prod.mk_add_mk, add_zero]
    · obtain ⟨before, hbefore, -⟩ := hall.lookup (prioritise_some he delta ▸ hafter)
      rw [← h.totals a before hbefore] at hrange ⊢
      simp only [hfamily, ha, false_or] at hrange ⊢
      obtain ⟨final, hfinal, hfsums⟩ := hstep ((if_neg ha).trans hbefore) fun hmem => by
        rw [if_pos hmem] at hrange
        exact hrange
      cases hafter.symm.trans hfinal
      exact hfsums

omit [PoolPolicy] in
theorem Summed.restore (h : Summed ids m) (txid : Txid) (time first_seen_height : ℕ) :
    Summed ids (m.restore txid time first_seen_height) := by
  unfold Mempool.restore
  split
  · exact h
  · next entry he =>
    have hsame : ∀ {α : Type} (f : MempoolEntry → α), f { entry with time, first_seen_height } = f entry → ∀ a,
        ((m.map.insert txid { entry with time, first_seen_height }).lookup a).map f = (m.map.lookup a).map f := by
      intro α f hf a
      rw [lookup_insert_eq]
      split
      · next heq => rw [heq, he, Option.map_some, Option.map_some, hf]
      · rfl
    have htxs : SameTxs m { m with map := m.map.insert txid { entry with time, first_seen_height } } :=
      .write he rfl rfl rfl rfl rfl rfl rfl
    refine ⟨h.toLineage.same htxs, ⟨?_, ?_⟩, h.totals.same htxs (hsame _ rfl) (hsame _ rfl)⟩
    · exact (total_insert_same he rfl).trans_lt h.fits.amounts
    · exact (total_insert_same he rfl).trans_lt h.fits.sizes

structure CallCountsOnce (ids : Identifiers) (m : Mempool) (op : PoolOp) : Prop where
  attempts : ∀ a ∈ op.attempts m, CountsOnce ids a
  returned : ∀ tx ∈ op.returned, ids.Names tx
  remove : ∀ txid, op = .remove txid → Bypassed m.Child txid
  prioritise : ∀ txid delta, op = .prioritise txid delta → total MempoolEntry.amount m.map + |delta| < 2 ^ 63

theorem Summed.edits (h : Summed ids m) (hd : DeltasHeld m) {op : PoolOp} (hop : op.edits)
    (hok : CallCountsOnce ids m op) : Summed ids (op.apply m) := by
  cases op with
  | accept_tx | expire | remove_recursive | on_block_connected | reinsert_disconnected | refill_from_disconnected =>
    cases hop
  | remove txid => exact h.remove_inner (hok.remove txid rfl) .Explicit 0 0
  | mark_unbroadcast txid =>
    exact ⟨h.toLineage.same ⟨fun _ => rfl, rfl, rfl, rfl, rfl⟩, ⟨h.fits.amounts, h.fits.sizes⟩, h.totals⟩
  | clear_unbroadcast txid =>
    exact ⟨h.toLineage.same ⟨fun _ => rfl, rfl, rfl, rfl, rfl⟩, ⟨h.fits.amounts, h.fits.sizes⟩, h.totals⟩
  | configure settings =>
    exact ⟨h.toLineage.same ⟨fun _ => rfl, rfl, rfl, rfl, rfl⟩, ⟨h.fits.amounts, h.fits.sizes⟩, h.totals⟩
  | restore txid time first_seen_height => exact h.restore txid time first_seen_height
  | prioritise txid delta => exact h.prioritise hd txid (hok.prioritise txid delta rfl)

theorem Summed.run (h : Run (CallCountsOnce ids) m) : Summed ids m := by
  induction h with
  | new => exact .new
  | @step m hrun op hok ih =>
    apply Summed.admits.apply ih hok.attempts
    · exact fun tx htx => Summed.remove_dependents (hok.returned tx htx)
    · rintro block conf_height rfl
      apply Summed.admits.on_block_connected _ ih
      exact fun _ h => h.quiet ⟨rfl, rfl, rfl, rfl, rfl, rfl, rfl, rfl⟩
    · exact fun hop => ih.edits (.run hrun.reachable) hop hok

theorem CountsOnce.of_room {a : Attempt} (named : ids.Names a.tx) (covered : ids.Covers a.cs)
    (fits : ∀ c, a.pool.examine a.tx a.cs a.now = .ok c →
      total MempoolEntry.amount a.pool.map + |c.fee| + |(a.pool.deltas.lookup (Platform.txid a.tx)).getD 0| < 2 ^ 63 ∧
        total MempoolEntry.vsize a.pool.map + c.vsize < 2 ^ 63)
    (hroom : a.pool.crowded a.tx.encode.length = false)
    (hnone : ∀ vout < a.tx.outputs.length, a.pool.spends.lookup ⟨Platform.txid a.tx, vout⟩ = none) :
      CountsOnce ids a where
  named := named
  covered := covered
  fits := fits
  kept c high t _ htrim id hid _ := by
    rw [trim, hroom] at htrim
    cases htrim
    exact hid
  once c high t _ htrim id _ d hbrings := by
    obtain ⟨vout, hv, b, hs, -⟩ := hbrings
    rcases (Shrinks.entered htrim).spends ⟨Platform.txid a.tx, vout⟩ with hn | hn
    · rw [hn] at hs
      cases hs
    · rw [hn, hnone vout hv] at hs
      cases hs

/-- In every run whose admissions and removals count each descendant once, the sums are exact; the rows always are. -/
theorem totals_exact (ids : Identifiers) :
    (∀ m, Run (CallCountsOnce ids) m → TotalsExact m) ∧ ∀ m, Reachable m → Scored m :=
  ⟨fun _ h => (Summed.run h).totals, fun _ h => Scored.run h⟩

end

section

attribute [local instance] Platform.sample PoolPolicy.sample

def sample_parent : Transaction := sample_tx 1 [(1000, 0)] [400000, 400000]

def sample_child : Transaction := sample_tx 2 [(1, 0)] [300000]

def sample_grandchild : Transaction := sample_tx 3 [(1, 1), (2, 0)] [600000]

def sample_settled : Chainstate :=
  { Chainstate.new sample_params with
    utxo := (UtxoSet.new.put ⟨1, 1⟩ (some ⟨⟨400000, []⟩, 1, false⟩)).put ⟨2, 0⟩ (some ⟨⟨300000, []⟩, 1, false⟩) }

def sample_diamond : Mempool :=
  ((new.accept_tx sample_grandchild sample_settled 0).2.reinsert_disconnected
    ⟨sample_header 1 1 0, [sample_parent, sample_child]⟩ (sample_chain 1) 0).2

def sample_identifiers : Identifiers where
  outputs txid := if txid = 1 then 2 else 1
  place txid := if txid = 1000 then 0 else txid.toNat

theorem sample_covers : sample_identifiers.Covers (sample_chain 1) := by
  intro op hop
  change (UtxoSet.new.put ⟨1000, 0⟩ (some ⟨⟨1000000, []⟩, 0, false⟩)).get op ≠ none at hop
  rw [UtxoSet.Ok.get_put UtxoSet.new_ok] at hop
  by_cases heq : op = ⟨1000, 0⟩
  · rw [heq]
    decide
  · rw [Function.update_of_ne heq] at hop
    exact absurd rfl hop

theorem totals_exact_family :
    TotalsExact ((new.accept_tx sample_parent (sample_chain 1) 0).2.accept_tx sample_child (sample_chain 1) 0).2 := by
  have hcall : ∀ (m : Mempool) (tx : Transaction), (PoolOp.attempts m (.accept_tx tx (sample_chain 1) 0)).length = 1 →
      CountsOnce sample_identifiers ⟨m.sweep 0, tx, sample_chain 1, 0⟩ →
      CallCountsOnce sample_identifiers m (.accept_tx tx (sample_chain 1) 0) := by
    intro m tx hlen hok
    refine ⟨fun a ha => ?_, fun _ h => absurd h List.not_mem_nil, ?_, ?_⟩
    · obtain ⟨b, hb⟩ := List.length_eq_one_iff.mp hlen
      have hfirst : b = ⟨m.sweep 0, tx, sample_chain 1, 0⟩ := (List.cons.inj hb).1.symm
      rw [hb, List.mem_singleton, hfirst] at ha
      rw [ha]
      exact hok
    · rintro txid ⟨⟩
    · rintro txid delta ⟨⟩
  have hfits : ∀ (m : Mempool) (tx : Transaction), ((m.examine tx (sample_chain 1) 0).toOption.all fun c =>
      decide (total MempoolEntry.amount m.map + |c.fee| + |(m.deltas.lookup (Platform.txid tx)).getD 0| < 2 ^ 63) &&
        decide (total MempoolEntry.vsize m.map + c.vsize < 2 ^ 63)) = true →
      ∀ c, m.examine tx (sample_chain 1) 0 = .ok c →
        total MempoolEntry.amount m.map + |c.fee| + |(m.deltas.lookup (Platform.txid tx)).getD 0| < 2 ^ 63 ∧
          total MempoolEntry.vsize m.map + c.vsize < 2 ^ 63 := by
    intro m tx hall c hc
    rw [hc] at hall
    obtain ⟨hamounts, hsizes⟩ := Bool.and_eq_true_iff.mp hall
    exact ⟨of_decide_eq_true hamounts, of_decide_eq_true hsizes⟩
  have hparent := hcall new sample_parent (by decide +kernel) (.of_room ⟨rfl, by decide⟩ sample_covers
    (hfits _ _ (by decide +kernel)) (by decide +kernel) fun _ _ => rfl)
  have hchild := hcall (new.accept_tx sample_parent (sample_chain 1) 0).2 sample_child (by decide +kernel)
    (.of_room ⟨rfl, by decide⟩ sample_covers (hfits _ _ (by decide +kernel)) (by decide +kernel) (by decide +kernel))
  exact (totals_exact sample_identifiers).1 _ (.step (.step .new _ hparent) _ hchild)

theorem diamond_counted_twice : ¬ ∀ m, Reachable m → TotalsExact m := by
  intro h
  have hrun : Reachable sample_diamond :=
    .step (.step .new (.accept_tx sample_grandchild sample_settled 0) trivial) (.reinsert_disconnected _ _ 0) trivial
  have hdiffers : (sample_diamond.map.lookup 1).all (fun entry => decide
      (entry.sums = picked MempoolEntry.own sample_diamond.map (1 :: sample_diamond.descendant_txids 1))) =
        false := by
    decide +kernel
  cases he : sample_diamond.map.lookup 1 with
  | none =>
    rw [he] at hdiffers
    cases hdiffers
  | some entry =>
    rw [he] at hdiffers
    exact of_decide_eq_false hdiffers (h sample_diamond hrun 1 entry he)

end

end Mempool

end AvilaNode
