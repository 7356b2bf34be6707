import AvilaNode.PoolGraph

/-! The package limits, over every run of calls. -/

namespace AvilaNode

open Layers Relation ClosureWalk

namespace Mempool

def vsizes (m : Mempool) (ids : List Txid) : ℕ := ((ids.filterMap m.map.lookup).map MempoolEntry.vsize).sum

def vsize_at (m : Mempool) (id : Txid) : ℕ := ((m.map.lookup id).map MempoolEntry.vsize).getD 0

theorem vsizes_eq (m : Mempool) (ids : List Txid) : m.vsizes ids = (ids.map m.vsize_at).sum :=
  picked_eq MempoolEntry.vsize m.map ids

variable {ids ids' : List Txid} {m t : Mempool}

theorem sum_map_le {f g : Txid → ℕ} (hn : ids.Nodup) (hsub : ids ⊆ ids') (hle : ∀ id, f id ≤ g id) :
    (ids.map f).sum ≤ (ids'.map g).sum := by
  obtain ⟨l, hperm, hl⟩ := List.subperm_of_subset hn hsub
  calc (ids.map f).sum ≤ (ids.map g).sum := List.sum_le_sum fun id _ => hle id
    _ = (l.map g).sum := ((hperm.map g).sum_eq).symm
    _ ≤ (ids'.map g).sum := (hl.map g).sum_le_sum fun _ _ => Nat.zero_le _

theorem Shrinks.vsize_at (h : Shrinks m t) (id : Txid) : t.vsize_at id ≤ m.vsize_at id := by
  unfold Mempool.vsize_at
  cases he : t.map.lookup id with
  | none => exact Nat.zero_le _
  | some entry =>
    obtain ⟨entry', he', hbody⟩ := h.lookup he
    rw [he', Option.map_some, Option.map_some, MempoolEntry.vsize_of_body hbody]

theorem Shrinks.vsizes (h : Shrinks m t) (hn : ids.Nodup) (hsub : ids ⊆ ids') : t.vsizes ids ≤ m.vsizes ids' := by
  rw [vsizes_eq, vsizes_eq]
  exact sum_map_le hn hsub h.vsize_at

theorem length_le_of_subset (hn : ids.Nodup) (hsub : ids ⊆ ids') : ids.length ≤ ids'.length :=
  (List.subperm_of_subset hn hsub).length_le

structure Within (m : Mempool) (id : Txid) (entry : MempoolEntry) : Prop where
  ancestors : (m.ancestors_of entry.tx).length + 1 ≤ 25
  ancestors_size : m.vsizes (m.ancestors_of entry.tx) + entry.vsize ≤ 101000
  descendants : (m.descendant_txids id).length + 1 ≤ 25
  descendants_size : m.vsizes (m.descendant_txids id) + entry.vsize ≤ 101000

def Limits (m : Mempool) : Prop := ∀ id entry, m.map.lookup id = some entry → Within m id entry

theorem Limits.shrinks (h : Limits m) (hs : Shrinks m t) : Limits t := by
  intro id entry he
  obtain ⟨entry', he', hbody⟩ := hs.lookup he
  obtain ⟨ha, has, hd, hds⟩ := h id entry' he'
  rw [MempoolEntry.tx_of_body hbody] at ha has
  rw [MempoolEntry.vsize_of_body hbody] at has hds
  have hsub := hs.ancestors_of entry.tx
  have hsub' := hs.descendant_txids id
  constructor
  · exact (Nat.add_le_add_right (length_le_of_subset (ancestors_of_nodup _ _) hsub) 1).trans ha
  · exact (Nat.add_le_add_right (hs.vsizes (ancestors_of_nodup _ _) hsub) _).trans has
  · exact (Nat.add_le_add_right (length_le_of_subset (descendant_txids_nodup _ _) hsub') 1).trans hd
  · exact (Nat.add_le_add_right (hs.vsizes (descendant_txids_nodup _ _) hsub') _).trans hds

theorem SameTxs.vsizes (h : SameTxs m t) (ids : List Txid) : t.vsizes ids = m.vsizes ids := by
  rw [vsizes_eq, vsizes_eq]
  congr 2
  funext id
  unfold Mempool.vsize_at
  cases he : t.map.lookup id with
  | none => rw [h.lookup_none he]
  | some entry =>
    obtain ⟨entry', he', -, -, hv⟩ := h.lookup he
    rw [he', Option.map_some, Option.map_some, hv]

theorem Limits.same (h : Limits m) (hs : SameTxs m t) : Limits t := by
  intro id entry he
  obtain ⟨entry', he', htx, -, hv⟩ := hs.lookup he
  obtain ⟨ha, has, hd, hds⟩ := h id entry' he'
  rw [htx] at ha has
  rw [hv] at has hds
  have hanc : (t.ancestors_of entry.tx).Perm (m.ancestors_of entry.tx) :=
    (List.perm_ext_iff_of_nodup (ancestors_of_nodup _ _) (ancestors_of_nodup _ _)).mpr fun _ => hs.mem_ancestors_of
  constructor
  · rwa [hanc.length_eq]
  · rwa [hs.vsizes, vsizes_eq, (hanc.map _).sum_eq, ← vsizes_eq]
  · rwa [hs.descendant_txids]
  · rwa [hs.descendant_txids, hs.vsizes]

section

variable [Platform]

section

variable {m : Mempool} {txid : Txid} {entry : MempoolEntry}

theorem index_vsize_at (m : Mempool) (txid id : Txid) (entry : MempoolEntry) :
    (m.index txid entry).vsize_at id = if id = txid then entry.vsize else m.vsize_at id := by
  unfold vsize_at
  change (((m.map.insert txid entry).lookup id).map _).getD 0 = _
  rw [lookup_insert_eq]
  split <;> rfl

structure Leaf (m : Mempool) (txid : Txid) (entry : MempoolEntry) : Prop where
  fresh : m.map.lookup txid = none
  spends : ∀ op ∈ entry.tx.inputs.map TxIn.previous_output, m.spends.lookup op = none
  unspent : ∀ vout, m.spends.lookup ⟨txid, vout⟩ = none
  other : ∀ input ∈ entry.tx.inputs, input.previous_output.txid ≠ txid

theorem Leaf.child (h : Leaf m txid entry) {a b : Txid} :
    (m.index txid entry).Child a b ↔ m.Child a b ∨ (b = txid ∧ m.Feeds a entry.tx) := by
  rw [index_child h.fresh h.spends h.other]
  simp only [h.unspent, reduceCtorEq, and_false, exists_false, or_false]

theorem Leaf.no_child (h : Leaf m txid entry) {b : Txid} : ¬ (m.index txid entry).Child txid b := by
  have hnone : ∀ {p : Prop}, (∃ e, m.map.lookup txid = some e ∧ p) → False := by
    rintro p ⟨e, he, -⟩
    rw [h.fresh] at he
    cases he
  rw [h.child]
  rintro (hc | ⟨-, e, he, -⟩)
  · obtain ⟨e, he, -⟩ := mem_children.mp hc
    exact hnone ⟨e, he, trivial⟩
  · exact hnone ⟨e, he, trivial⟩

theorem Leaf.descends (h : Leaf m txid entry) {a b : Txid} (hd : (m.index txid entry).Descends a b) :
    m.Descends a b ∨ (b = txid ∧ ∃ p, ReflTransGen m.Child a p ∧ m.Feeds p entry.tx) := by
  induction hd with
  | single hc =>
    rcases h.child.mp hc with hc | ⟨hb, hfeeds⟩
    · exact Or.inl (.single hc)
    · exact Or.inr ⟨hb, a, .refl, hfeeds⟩
  | tail _ hc ih =>
    rcases ih with hd | ⟨rfl, -⟩
    · rcases h.child.mp hc with hc | ⟨hb, hfeeds⟩
      · exact Or.inl (hd.tail hc)
      · exact Or.inr ⟨hb, _, hd.to_reflTransGen, hfeeds⟩
    · exact absurd hc h.no_child

variable {tx : Transaction}

theorem index_parents (hother : ∀ input ∈ tx.inputs, input.previous_output.txid ≠ txid) {a : Txid} :
    a ∈ (m.index txid entry).parents tx ↔ a ∈ m.parents tx := by
  rw [mem_parents, mem_parents, index_contains]
  constructor
  · rintro ⟨⟨input, hinput, rfl⟩, hc⟩
    rw [decide_eq_false (hother input hinput), Bool.false_or] at hc
    exact ⟨⟨input, hinput, rfl⟩, hc⟩
  · rintro ⟨hinput, hc⟩
    rw [hc, Bool.or_true]
    exact ⟨hinput, rfl⟩

section

variable (h : Leaf m txid entry)
include h

theorem Leaf.pooled_other (hm : Indexes m) {b : Txid} {spender : MempoolEntry} (hb : m.map.lookup b = some spender) :
    ∀ input ∈ spender.tx.inputs, input.previous_output.txid ≠ txid := by
  intro input hinput heq
  have hs := (hm.spends input.previous_output b).mpr ⟨spender, hb, List.mem_map_of_mem hinput⟩
  have hnone := h.unspent input.previous_output.vout
  rw [← heq] at hnone
  rw [hs] at hnone
  cases hnone

theorem Leaf.ancestors_of (hm : Indexes m) (hother : ∀ input ∈ tx.inputs, input.previous_output.txid ≠ txid) :
    (m.index txid entry).ancestors_of tx ⊆ m.ancestors_of tx := by
  intro a ha
  obtain ⟨p, hp, hpath⟩ := mem_ancestors_of.mp ha
  have hparent : ∀ {tx : Transaction} {q : Txid}, q ∈ m.parents tx → ∃ spender, m.map.lookup q = some spender :=
    fun hq => Option.isSome_iff_exists.mp (mem_parents.mp hq).2
  have hp := (index_parents hother).mp hp
  suffices hall : ReflTransGen (Succ m.parents_of) p a ∧ ∃ spender, m.map.lookup a = some spender from
    mem_ancestors_of.mpr ⟨p, hp, hall.1⟩
  clear ha
  induction hpath with
  | refl => exact ⟨.refl, hparent hp⟩
  | @tail b c _ hbc ih =>
    obtain ⟨hpath, spender, hspender⟩ := ih
    have hne : b ≠ txid := by
      rintro rfl
      rw [h.fresh] at hspender
      cases hspender
    obtain ⟨entry', he', hq⟩ := mem_parents_of.mp hbc
    change (m.map.insert txid entry).lookup b = _ at he'
    rw [lookup_insert_eq, if_neg hne, hspender] at he'
    cases he'
    have hq := (index_parents (h.pooled_other hm hspender)).mp hq
    exact ⟨hpath.tail (mem_parents_of.mpr ⟨spender, hspender, hq⟩), hparent hq⟩

theorem Leaf.vsizes_old (hn : ids.Nodup) (hsub : ids ⊆ ids') (hpooled : ∀ id ∈ ids', m.body id ≠ none) :
    (m.index txid entry).vsizes ids ≤ m.vsizes ids' := by
  have heq : ids.map (m.index txid entry).vsize_at = ids.map m.vsize_at := by
    apply List.map_congr_left
    intro id hid
    rw [index_vsize_at, if_neg]
    rintro rfl
    exact hpooled id (hsub hid) (body_eq_none.mpr h.fresh)
  rw [vsizes_eq, heq, vsizes_eq]
  exact sum_map_le hn hsub fun _ => le_rfl

theorem Leaf.vsizes_new (hn : ids.Nodup) (hsub : ids ⊆ txid :: ids') (hpooled : ∀ id ∈ ids', m.body id ≠ none) :
    (m.index txid entry).vsizes ids ≤ entry.vsize + m.vsizes ids' := by
  have hle := sum_map_le hn hsub fun id => le_refl ((m.index txid entry).vsize_at id)
  have heq : ids'.map (m.index txid entry).vsize_at = ids'.map m.vsize_at := by
    apply List.map_congr_left
    intro id hid
    rw [index_vsize_at, if_neg]
    rintro rfl
    exact hpooled id hid (body_eq_none.mpr h.fresh)
  rw [List.map_cons, List.sum_cons, heq, index_vsize_at, if_pos rfl, ← vsizes_eq, ← vsizes_eq] at hle
  exact hle

end

theorem Limits.index (hlimits : Limits m) (hm : Indexes m) (h : Leaf m txid entry)
    (hanc : (m.ancestors_of entry.tx).length + 1 ≤ 25)
    (hsize : m.vsizes (m.ancestors_of entry.tx) + entry.vsize ≤ 101000)
    (hroom : ∀ a ∈ m.ancestors_of entry.tx, ∀ ancestor, m.map.lookup a = some ancestor →
      (m.descendant_txids a).length + 2 ≤ 25 ∧
        m.vsizes (m.descendant_txids a) + ancestor.vsize + entry.vsize ≤ 101000) :
    Limits (m.index txid entry) := by
  have hancestors : ∀ {tx : Transaction}, ∀ a ∈ m.ancestors_of tx, m.body a ≠ none := fun _ ha => ancestors_pooled ha
  have hdescendants : ∀ {a : Txid}, ∀ d ∈ m.descendant_txids a, m.body d ≠ none := fun d hd =>
    hm.descends_pooled (mem_descendant_txids.mp hd)
  intro id entry' he
  change (m.map.insert txid entry).lookup id = _ at he
  rw [lookup_insert_eq] at he
  split at he
  · next heq =>
    cases he
    subst heq
    have hsub := h.ancestors_of hm h.other
    have hnone : (m.index id entry).descendant_txids id = [] := by
      apply List.eq_nil_iff_forall_not_mem.mpr
      intro d hd
      obtain ⟨c, hc, -⟩ := TransGen.head'_iff.mp (mem_descendant_txids.mp hd)
      exact h.no_child hc
    constructor
    · exact (Nat.add_le_add_right (length_le_of_subset (ancestors_of_nodup _ _) hsub) 1).trans hanc
    · exact (Nat.add_le_add_right (h.vsizes_old (ancestors_of_nodup _ _) hsub hancestors) _).trans hsize
    · rw [hnone]
      decide
    · rw [hnone]
      exact (Nat.add_le_add_right (Nat.zero_le _) _).trans hsize
  · obtain ⟨ha, has, hd, hds⟩ := hlimits id entry' he
    have hsub := h.ancestors_of hm (h.pooled_other hm he)
    have hold : txid ∉ (m.index txid entry).descendant_txids id →
        (m.index txid entry).descendant_txids id ⊆ m.descendant_txids id := by
      intro hnot d hd
      rcases h.descends (mem_descendant_txids.mp hd) with hold | ⟨rfl, -⟩
      · exact mem_descendant_txids.mpr hold
      · exact absurd hd hnot
    have hnew : (m.index txid entry).descendant_txids id ⊆ txid :: m.descendant_txids id := by
      intro d hd
      rcases h.descends (mem_descendant_txids.mp hd) with hold | ⟨rfl, -⟩
      · exact List.mem_cons_of_mem _ (mem_descendant_txids.mpr hold)
      · exact List.mem_cons_self
    have hnodup := descendant_txids_nodup (m.index txid entry) id
    have hbound : ((m.index txid entry).descendant_txids id).length + 1 ≤ 25 ∧
        (m.index txid entry).vsizes ((m.index txid entry).descendant_txids id) + entry'.vsize ≤ 101000 := by
      by_cases hin : txid ∈ (m.index txid entry).descendant_txids id
      · obtain ⟨p, hpath, hfeeds⟩ : ∃ p, ReflTransGen m.Child id p ∧ m.Feeds p entry.tx := by
          rcases h.descends (mem_descendant_txids.mp hin) with hold | ⟨-, hp⟩
          · exact absurd (body_eq_none.mpr h.fresh) (hm.descends_pooled hold)
          · exact hp
        obtain ⟨hcount, hsum⟩ := hroom id (hm.ancestor_of_path hpath hfeeds) entry' he
        have hlen := length_le_of_subset hnodup hnew
        have hvsizes := h.vsizes_new hnodup hnew hdescendants
        rw [List.length_cons] at hlen
        omega
      · have hlen := length_le_of_subset hnodup (hold hin)
        have hvsizes := h.vsizes_old hnodup (hold hin) hdescendants
        omega
    constructor
    · exact (Nat.add_le_add_right (length_le_of_subset (ancestors_of_nodup _ _) hsub) 1).trans ha
    · exact (Nat.add_le_add_right (h.vsizes_old (ancestors_of_nodup _ _) hsub hancestors) _).trans has
    · exact hbound.1
    · exact hbound.2

end

variable [PoolPolicy]

/-- Nothing pooled spends the transaction's outputs, nor does it itself; and each of its ancestors has room for
one more descendant when it counts itself. -/
def LeavesRoom (a : Attempt) : Prop := ∀ c, a.pool.examine a.tx a.cs a.now = .ok c →
  (∀ vout, a.pool.spends.lookup ⟨Platform.txid a.tx, vout⟩ = none) ∧
  (∀ input ∈ a.tx.inputs, input.previous_output.txid ≠ Platform.txid a.tx) ∧
  ∀ id ∈ a.pool.ancestors_of a.tx, ∀ ancestor, a.pool.map.lookup id = some ancestor →
    (a.pool.descendants_of id).1 + 2 ≤ 25 ∧ (a.pool.descendants_of id).2 + ancestor.vsize + c.vsize ≤ 101000

omit [Platform] [PoolPolicy] in
theorem check_package_ok {ancestors : List Txid} {vsize : ℕ} (h : m.check_package ancestors vsize = .ok ()) :
    ancestors.length + 1 ≤ 25 ∧ m.vsizes ancestors + vsize ≤ 101000 := by
  unfold check_package at h
  split at h
  · cases h
  · next hcount =>
    split at h
    · cases h
    · next hsize => exact ⟨Nat.le_of_not_lt hcount, Nat.le_of_not_lt hsize⟩

theorem Limits.keeps : Keeps (fun m => Indexes m ∧ Limits m) LeavesRoom := by
  apply Keeps.of_remove_inner
  · exact fun hs h => ⟨h.1.same hs.same_txs, h.2.same hs.same_txs⟩
  · exact fun txid cause now height h =>
      ⟨h.1.remove_inner txid cause now height, h.2.shrinks (.remove_inner _ _ _ _ _)⟩
  · intro m tx cs c now removed_high trimmed hm hok hc htrim h
    have hexamined := examine_ok hc
    have hshrinks := Shrinks.entered htrim
    obtain ⟨hunspent, hother, hroom⟩ := hok c hc
    refine ⟨.pool_entry hc htrim h.1, ?_⟩
    apply Limits.same _ (SumsOnly.pool_entry _ tx cs c now).same_txs
    have hleaf : Leaf (trimmed.entered tx c now removed_high) (Platform.txid tx)
        ((trimmed.entered tx c now removed_high).entry_of tx cs c now) := by
      refine ⟨entered_fresh hc htrim, entered_spends hc htrim h.1, fun vout => ?_, hother⟩
      exact (hshrinks.spends _).elim id fun hs => hs.trans (hunspent vout)
    have hsub := hshrinks.ancestors_of tx
    obtain ⟨hcount, hsize⟩ := check_package_ok hexamined.package
    rw [hexamined.ancestors] at hcount hsize
    apply h.2.index h.1 hleaf
    · exact (Nat.add_le_add_right (length_le_of_subset (ancestors_of_nodup _ _) hsub) 1).trans hcount
    · exact (Nat.add_le_add_right (hshrinks.vsizes (ancestors_of_nodup _ _) hsub) _).trans hsize
    · intro a ha ancestor he
      obtain ⟨ancestor', he', hbody⟩ := hshrinks.lookup he
      obtain ⟨hcount, hsum⟩ := hroom a (hsub ha) ancestor' he'
      have hlen := length_le_of_subset (descendant_txids_nodup _ _) (hshrinks.descendant_txids a)
      have hvsizes := hshrinks.vsizes (descendant_txids_nodup _ a) (hshrinks.descendant_txids a)
      rw [MempoolEntry.vsize_of_body hbody] at hsum
      change (m.descendant_txids a).length + 2 ≤ 25 at hcount
      change m.vsizes (m.descendant_txids a) + ancestor.vsize + c.vsize ≤ 101000 at hsum
      change _ ∧ _ + ancestor.vsize + c.vsize ≤ 101000
      omega

/-- Where every admission leaves room, the limits hold in every state. -/
theorem package_limits {m : Mempool} (h : Run (fun m op => ∀ a ∈ op.attempts m, LeavesRoom a) m) : Limits m := by
  suffices hboth : Indexes m ∧ Limits m from hboth.2
  induction h with
  | new => exact ⟨.new, fun _ _ he => by cases he⟩
  | @step m _ op hok ih =>
    apply Limits.keeps.apply ih hok
    intro hop
    rcases edits_same m hop with ⟨txid, rfl⟩ | hs
    · exact ⟨ih.1.remove_inner txid .Explicit 0 0, ih.2.shrinks (.remove_inner _ _ _ _ _)⟩
    · exact ⟨ih.1.same hs, ih.2.same hs⟩

end

section

attribute [local instance] Platform.sample PoolPolicy.sample

def sample_star : ℕ → Mempool
  | 0 => (new.accept_tx (sample_tx 1 [(1000, 0)] (List.replicate 25 30000)) (sample_chain 1) 0).2
  | n + 1 => ((sample_star n).accept_tx (sample_tx (2 + n) [(1, n)] [20000]) (sample_chain 1) 0).2

theorem package_limits_star : Limits (sample_star 0) := by
  apply package_limits (.step .new
    (.accept_tx (sample_tx 1 [(1000, 0)] (List.replicate 25 30000)) (sample_chain 1) 0) _)
  have hlen : (PoolOp.attempts new (.accept_tx (sample_tx 1 [(1000, 0)] (List.replicate 25 30000)) (sample_chain 1)
      0)).length = 1 := by decide +kernel
  intro a ha c _
  have heq : a = ⟨new.sweep 0, sample_tx 1 [(1000, 0)] (List.replicate 25 30000), sample_chain 1, 0⟩ := by
    obtain ⟨b, hb⟩ := List.length_eq_one_iff.mp hlen
    rw [hb, List.mem_singleton] at ha
    rw [ha]
    exact (List.cons.inj hb).1.symm
  subst heq
  refine ⟨fun vout => rfl, ?_, fun id hid => ?_⟩
  · intro input hinput
    rw [List.mem_singleton.mp hinput]
    decide
  · exact absurd hid (List.not_mem_nil)

theorem sample_star_run (n : ℕ) : Run (fun _ op => op.readds = false) (sample_star n) := by
  induction n with
  | zero => exact .step .new (.accept_tx _ _ _) rfl
  | succ n ih => exact .step ih (.accept_tx _ _ _) rfl

theorem star_exceeds : ¬ ∀ m, Run (fun _ op => op.readds = false) m → Limits m := by
  intro h
  obtain ⟨hlen, hpooled⟩ : ((sample_star 25).descendant_txids 1).length = 25 ∧
      ((sample_star 25).map.lookup 1).isSome := by decide +kernel
  obtain ⟨entry, he⟩ := Option.isSome_iff_exists.mp hpooled
  have hcount := (h _ (sample_star_run 25) 1 entry he).descendants
  rw [hlen] at hcount
  exact absurd hcount (by decide)

end

end Mempool

end AvilaNode
