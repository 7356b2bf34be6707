import AvilaNode.FailedAdmission
import AvilaNode.PoolGraph

/-! What a replacement takes out of the pool, and what it pays for it. -/

namespace AvilaNode

open Layers Relation

namespace Mempool

def fee_at (m : Mempool) (txid : Txid) : ℤ := ((m.map.lookup txid).map MempoolEntry.fee).getD 0

section

variable [Platform]

def Appends (cause : RemovalCause) (m t : Mempool) : Prop :=
  ∃ events, t.lifecycle = m.lifecycle ++ events ∧ ∀ e ∈ events, e.cause = cause

omit [Platform] in
theorem Appends.refl (cause : RemovalCause) (m : Mempool) : Appends cause m m :=
  ⟨[], (List.append_nil _).symm, fun _ h => absurd h List.not_mem_nil⟩

variable {m t : Mempool} {c : Candidate} {tx_size now : ℕ} {id : Txid} {tx : Transaction} {cs : Chainstate}

omit [Platform] in
theorem Appends.trans {cause : RemovalCause} {u : Mempool} (h : Appends cause m t) (h' : Appends cause t u) :
    Appends cause m u := by
  obtain ⟨events, hl, hc⟩ := h
  obtain ⟨events', hl', hc'⟩ := h'
  refine ⟨events ++ events', by rw [hl', hl, List.append_assoc], fun e he => ?_⟩
  exact (List.mem_append.mp he).elim (hc e) (hc' e)

theorem Appends.remove_recursive (m : Mempool) (txid : Txid) (cause : RemovalCause) (now height : ℕ) :
    Appends cause m (m.remove_recursive_inner txid cause now height) := by
  apply remove_recursive_keeps (P := Appends cause m)
  · intro t id h
    obtain ⟨events, hl, -, hc, -⟩ := Logs.remove_inner t id cause now height
    exact h.trans ⟨events, hl, hc⟩
  · exact .refl cause m

theorem Appends.sweep (m : Mempool) (now : ℕ) : Appends .Expired m (m.sweep now) := by
  unfold Mempool.sweep
  split
  · apply expire_keeps (P := Appends .Expired m)
    · exact fun t txid h => h.trans (.remove_recursive t txid .Expired now 0)
    · exact .refl .Expired m
  · exact .refl _ m

theorem trim_evicts {rounds : ℕ} {high : Option (ℤ × ℕ)} {r : Option (Option (ℤ × ℕ))}
    (h : trim c tx_size now rounds high m = (r, t)) :
    ReflTransGen (Evicts c tx_size now) m t := by
  induction rounds generalizing m high with
  | zero =>
    cases h
    exact .refl
  | succ rounds ih =>
    rw [trim] at h
    split at h
    · next hcrowded =>
      split at h
      · cases h
        exact .refl
      · next worst hw =>
        split at h
        · next hout => exact .head ⟨hcrowded, worst, hw, hout, rfl⟩ (ih h)
        · cases h
          exact .refl
    · cases h
      exact .refl

theorem Appends.evicts (h : ReflTransGen (Evicts c tx_size now) m t) : Appends .Evicted m t := by
  induction h with
  | refl => exact .refl _ m
  | tail _ hstep ih =>
    obtain ⟨-, worst, -, -, rfl⟩ := hstep
    exact ih.trans (.remove_recursive _ _ _ _ _)

theorem Closed.evicts (hm : Indexes m) (hacyclic : Acyclic m) (h : ReflTransGen (Evicts c tx_size now) m t) :
    Closed m t ∧ Indexes t := by
  induction h with
  | refl => exact ⟨.refl m, hm⟩
  | tail _ hstep ih =>
    obtain ⟨-, worst, -, -, rfl⟩ := hstep
    obtain ⟨hclosed, ht⟩ := ih
    have htakes := remove_recursive_takes ht
      (hacyclic.shrinks hclosed.toShrinks) worst.txid .Evicted now c.next_height
    exact ⟨hclosed.trans hm ht htakes.toClosed, remove_recursive_keeps (fun _ id hp => hp.remove_inner id _ _ _) ht _⟩

theorem evicts_unique {u : Mempool} (ht : ReflTransGen (Evicts c tx_size now) m t)
    (hu : ReflTransGen (Evicts c tx_size now) m u) (htroom : t.crowded tx_size = false)
    (huroom : u.crowded tx_size = false) : t = u := by
  have hstop : ∀ {a b : Mempool}, a.crowded tx_size = false → ReflTransGen (Evicts c tx_size now) a b → a = b := by
    intro a b ha hab
    rcases hab.cases_head with rfl | ⟨d, hd, -⟩
    · rfl
    · rw [hd.1] at ha
      cases ha
  rcases ReflTransGen.total_of_right_unique (fun _ _ _ h h' => h.unique h') ht hu with h | h
  · exact hstop htroom h
  · exact (hstop huroom h).symm

omit [Platform] in
theorem mem_set_being_replaced {conflicts : List Txid} :
    id ∈ m.set_being_replaced conflicts ↔ ∃ conflict ∈ conflicts, ReflTransGen m.Child conflict id := by
  unfold set_being_replaced
  simp only [List.mem_dedup, List.mem_flatMap, List.mem_cons, mem_descendant_txids]
  constructor
  · rintro ⟨conflict, hc, rfl | hd⟩
    · exact ⟨id, hc, .refl⟩
    · exact ⟨conflict, hc, hd.to_reflTransGen⟩
  · rintro ⟨conflict, hc, hpath⟩
    refine ⟨conflict, hc, ?_⟩
    rcases reflTransGen_iff_eq_or_transGen.mp hpath with heq | hd
    · exact Or.inl heq
    · exact Or.inr hd

theorem Acyclic.sweep (h : Acyclic m) (now : ℕ) : Acyclic (m.sweep now) :=
  Acyclic.shrinks (m := { m with last_expire := (m.sweep now).last_expire }) h (.sweep m now)

variable [PoolPolicy]

def replaced (m : Mempool) (tx : Transaction) (cs : Chainstate) (now : ℕ) : List LifecycleEvent :=
  ((m.accept_one tx cs now).2.lifecycle.drop m.lifecycle.length).filter fun e =>
    decide (e.cause = .Replaced (Platform.txid tx))

def left_to_replace (m t : Mempool) (c : Candidate) : List Txid :=
    (m.set_being_replaced c.conflicts).filter t.contains

omit [Platform] [PoolPolicy] in
theorem left_to_replace_nodup (m t : Mempool) (c : Candidate) : (m.left_to_replace t c).Nodup :=
  (List.nodup_dedup _).filter _

omit [Platform] [PoolPolicy] in
theorem mem_left_to_replace : id ∈ m.left_to_replace t c ↔
    (∃ conflict ∈ c.conflicts, ReflTransGen m.Child conflict id) ∧ t.body id ≠ none := by
  rw [left_to_replace, List.mem_filter, mem_set_being_replaced, contains_eq, Option.isSome_iff_ne_none]

omit [Platform] [PoolPolicy] in
theorem check_replacement_ok {ancestors conflicts : List Txid}
    (h : m.check_replacement ancestors conflicts = .ok ()) :
    (m.set_being_replaced conflicts).length ≤ MAX_REPLACEMENT_CANDIDATES ∧
      ∀ id ∈ m.set_being_replaced conflicts, id ∉ ancestors := by
  unfold check_replacement at h
  split at h
  · next hempty =>
    rw [List.isEmpty_iff.mp hempty]
    exact ⟨Nat.zero_le _, fun id hid => absurd hid List.not_mem_nil⟩
  · dsimp only at h
    split at h
    · cases h
    · next hany =>
      split at h
      · cases h
      · next hlen =>
        refine ⟨Nat.le_of_not_lt hlen, fun id hid hancestor => hany ?_⟩
        exact List.any_eq_true.mpr ⟨id, hancestor, List.contains_iff_mem.mpr hid⟩

theorem entered_kept {m t : Mempool} {tx : Transaction} {cs : Chainstate} {c : Candidate} {now : ℕ}
    (hc : Examined m tx cs now c) (hs : Shrinks m t) (ht : Indexes t) (hacyclic : Acyclic t) (high : Option (ℤ × ℕ))
    {a : Txid} (ha : a ∈ t.ancestors_of tx) : (t.entered tx c now high).body a = t.body a :=
    by
  have hraised := Shrinks.raise_rolling_fee t high now
  have hbody : ∀ b, (t.raise_rolling_fee high now).body b = t.body b := by
    intro b
    rw [body, (raise_rolling_fee_same t high now).map, body]
  have htakes : Takes (.Replaced (Platform.txid tx)) c.conflicts (t.raise_rolling_fee high now)
    (t.entered tx c now high) :=
    remove_each_takes c.conflicts (ht.same (raise_rolling_fee_same t high now).same_txs) (hacyclic.shrinks hraised)
  rw [← hbody]
  refine (htakes.body a).resolve_left fun hgone => ?_
  have hpooled : (t.raise_rolling_fee high now).body a ≠ none := by
    rw [hbody]
    exact ancestors_pooled ha
  obtain ⟨root, hroot, hpath⟩ := htakes.only hpooled hgone
  apply (check_replacement_ok hc.replacement).2 a
  · exact mem_set_being_replaced.mpr ⟨root, hroot, hpath.lift (fun id => id) fun _ _ => (hs.trans hraised).child⟩
  · rw [hc.ancestors]
    exact hs.ancestors_of tx ha

theorem entered_ancestors (hc : Examined m tx cs now c) (hs : Shrinks m t) (ht : Indexes t) (hacyclic : Acyclic t)
    (high : Option (ℤ × ℕ)) {a : Txid} (ha : a ∈ t.ancestors_of tx) : a ∈ (t.entered tx c now high).ancestors_of tx :=
    by
  have hkept := fun b hb => @entered_kept _ _ m t tx cs c now hc hs ht hacyclic high b hb
  generalize t.entered tx c now high = u at hkept ⊢
  have hcontains : ∀ b ∈ t.ancestors_of tx, u.contains b := by
    intro b hb
    rw [contains_eq, hkept b hb, Option.isSome_iff_ne_none]
    exact ancestors_pooled hb
  obtain ⟨p, hp, hpath⟩ := mem_ancestors_of.mp ha
  have hup : p ∈ u.parents tx :=
    mem_parents.mpr ⟨(mem_parents.mp hp).1, hcontains p (mem_ancestors_of.mpr ⟨p, hp, .refl⟩)⟩
  refine mem_ancestors_of.mpr ⟨p, hup, ?_⟩
  clear ha
  induction hpath with
  | refl => exact .refl
  | @tail b d hpb hbd ih =>
    apply ih.tail
    obtain ⟨entry, he, hd⟩ := mem_parents_of.mp hbd
    obtain ⟨entry', he', heq⟩ := lookup_of_body (hkept b (mem_ancestors_of.mpr ⟨p, hp, hpb⟩)).symm he
    refine mem_parents_of.mpr
      ⟨entry', he', mem_parents.mpr ⟨?_, hcontains d (mem_ancestors_of.mpr ⟨p, hp, hpb.tail hbd⟩)⟩⟩
    rw [MempoolEntry.tx_of_body heq]
    exact (mem_parents.mp hd).1

variable {removed_high : Option (ℤ × ℕ)} {trimmed : Mempool}

theorem entered_takes (hm : Indexes m) (hacyclic : Acyclic m)
    (htrim : ReflTransGen (Evicts c tx.encode.length now) m trimmed) :
    ∃ events, (trimmed.entered tx c now removed_high).lifecycle = trimmed.lifecycle ++ events ∧
      (∀ e ∈ events, e.cause = .Replaced (Platform.txid tx)) ∧
      (events.map LifecycleEvent.txid).Perm (m.left_to_replace trimmed c) ∧
      (∀ e ∈ events, e.fee = m.fee_at e.txid) ∧
      total MempoolEntry.fee trimmed.map =
        total MempoolEntry.fee (trimmed.entered tx c now removed_high).map + (events.map LifecycleEvent.fee).sum := by
  obtain ⟨hclosed, ht⟩ := Closed.evicts hm hacyclic htrim
  have hsame := raise_rolling_fee_same trimmed removed_high now
  have hraised := Shrinks.raise_rolling_fee trimmed removed_high now
  have hbody : ∀ id, (trimmed.raise_rolling_fee removed_high now).body id = trimmed.body id := by
    intro id
    rw [body, hsame.map, body]
  generalize hr : trimmed.raise_rolling_fee removed_high now = raised at hsame hraised hbody
  have hindexes := ht.same hsame.same_txs
  have hmr : Closed m raised :=
    hclosed.trans hm ht ⟨hraised, fun _ ha hgone => absurd ((hbody _).symm.trans hgone) ha⟩
  have htakes : Takes (.Replaced (Platform.txid tx)) c.conflicts raised (trimmed.entered tx c now removed_high) := by
    unfold entered
    rw [hr]
    exact remove_each_takes c.conflicts hindexes (hacyclic.shrinks hmr.toShrinks)
  have hall := hmr.trans hm hindexes htakes.toClosed
  obtain ⟨events, hl, hn, hcause, hfees, hmem⟩ := htakes.log
  refine ⟨events, by rw [hl, hsame.lifecycle], hcause, ?_, fun e he => ?_, by rw [← hfees, hsame.map]⟩
  · apply (List.perm_ext_iff_of_nodup hn (left_to_replace_nodup m trimmed c)).mpr
    intro id
    rw [mem_left_to_replace, ← hbody]
    constructor
    · intro hid
      obtain ⟨e, he, rfl⟩ := List.mem_map.mp hid
      obtain ⟨hfee, hgone⟩ := (hmem e.txid e.fee).mp ⟨e, he, rfl, rfl⟩
      have hpooled : raised.body e.txid ≠ none := by
        intro hnone
        rw [hnone] at hfee
        cases hfee
      obtain ⟨root, hroot, hpath⟩ := htakes.only hpooled hgone
      exact ⟨⟨root, hroot, hpath.lift (fun id => id) fun _ _ => hmr.child⟩, hpooled⟩
    · rintro ⟨⟨root, hroot, hpath⟩, hpooled⟩
      have hgone : (trimmed.entered tx c now removed_high).body id = none := by
        rcases reflTransGen_iff_eq_or_transGen.mp hpath with rfl | hd
        · exact htakes.gone _ hroot
        · exact hall.descends hm hd (Descends.parent_pooled hd) (htakes.gone root hroot)
      obtain ⟨entry, hentry⟩ := Option.ne_none_iff_exists'.mp hpooled
      obtain ⟨e, he, hid, -⟩ := (hmem id entry.fee).mpr ⟨by rw [hentry]; rfl, hgone⟩
      exact List.mem_map.mpr ⟨e, he, hid⟩
  · obtain ⟨hfee, -⟩ := (hmem e.txid e.fee).mp ⟨e, he, rfl, rfl⟩
    have hm : m.body e.txid = raised.body e.txid := by
      refine ((hmr.body e.txid).resolve_left fun hnone => ?_).symm
      rw [hnone] at hfee
      cases hfee
    rw [← hm, body, Option.map_map] at hfee
    change (m.map.lookup e.txid).map MempoolEntry.fee = some e.fee at hfee
    rw [fee_at, hfee]
    rfl

omit [PoolPolicy] in
theorem pool_entry_lifecycle (m : Mempool) (tx : Transaction) (cs : Chainstate) (c : Candidate) (now : ℕ) :
    (m.pool_entry tx cs c now).lifecycle = m.lifecycle := by
  rw [(SumsOnly.pool_entry m tx cs c now).rest]
  rfl

theorem replaced_eq {events : List LifecycleEvent}
    (haccepted : (m.accept_one tx cs now).2 = (trimmed.entered tx c now removed_high).pool_entry tx cs c now)
    (htrim : ReflTransGen (Evicts c tx.encode.length now) (m.sweep now) trimmed)
    (hl : (trimmed.entered tx c now removed_high).lifecycle = trimmed.lifecycle ++ events)
    (hcause : ∀ e ∈ events, e.cause = .Replaced (Platform.txid tx)) : m.replaced tx cs now = events := by
  obtain ⟨expired, hexpired, hec⟩ := Appends.sweep m now
  obtain ⟨evicted, hevicted, hvc⟩ := Appends.evicts htrim
  have hdrop : ∀ (rows : List LifecycleEvent) (cause : RemovalCause), cause ≠ .Replaced (Platform.txid tx) →
      (∀ e ∈ rows, e.cause = cause) →
        rows.filter (fun e => decide (e.cause = .Replaced (Platform.txid tx))) = [] := by
    intro rows cause hne hrows
    apply List.filter_eq_nil_iff.mpr
    intro e he
    rw [hrows e he, decide_eq_true_iff]
    exact hne
  unfold replaced
  rw [haccepted, pool_entry_lifecycle, hl, hevicted, hexpired, List.append_assoc, List.append_assoc, List.drop_left,
    List.filter_append, List.filter_append, hdrop expired .Expired (by simp) hec,
      hdrop evicted .Evicted (by simp) hvc,
    List.nil_append, List.nil_append, List.filter_eq_self.mpr fun e he => decide_eq_true (hcause e he)]

/-- What a replacement owes: at most a hundred entries go, none of them an ancestor; the fee pays for all of
them and for its own relay, so that the pool's fees do not fall. -/
structure Pays (m : Mempool) (tx : Transaction) (cs : Chainstate) (now : ℕ) : Prop where
  count : (m.replaced tx cs now).length ≤ 100
  ancestors : ∀ e ∈ m.replaced tx cs now, e.txid ∉ (m.sweep now).ancestors_of tx
  fee : ∃ entry, (m.accept_one tx cs now).2.map.lookup (Platform.txid tx) = some entry ∧
    ((m.replaced tx cs now).map LifecycleEvent.fee).sum + incremental_fee entry.vsize ≤ entry.fee
  total : ∀ c t, (m.sweep now).examine tx cs now = .ok c →
    ReflTransGen (Evicts c tx.encode.length now) (m.sweep now) t → t.crowded tx.encode.length = false →
    total MempoolEntry.fee t.map ≤ total MempoolEntry.fee (m.accept_one tx cs now).2.map

def Covered (m : Mempool) (tx : Transaction) (cs : Chainstate) (now : ℕ) : Prop :=
  ∀ c t, (m.sweep now).examine tx cs now = .ok c →
    ReflTransGen (Evicts c tx.encode.length now) (m.sweep now) t → t.crowded tx.encode.length = false →
    ((((m.sweep now).left_to_replace t c).filter fun id => !c.conflicts.contains id).map (m.sweep now).fee_at).sum ≤
      c.fee - incremental_fee c.vsize -
        ((((m.sweep now).left_to_replace t c).filter fun id => c.conflicts.contains id).map (m.sweep now).fee_at).sum

omit [Platform] [PoolPolicy] in
theorem sum_filter_conflicts (m : Mempool) (ids conflicts : List Txid) :
    ((ids.filter fun id => conflicts.contains id).map m.fee_at).sum +
      ((ids.filter fun id => !conflicts.contains id).map m.fee_at).sum = (ids.map m.fee_at).sum := by
  rw [← List.sum_append, ← List.map_append]
  apply List.Perm.sum_eq
  apply List.Perm.map
  exact List.filter_append_perm (fun id => conflicts.contains id) ids

end

section

attribute [local instance] Platform.sample PoolPolicy.sample

def sample_family : Mempool :=
  (new.accept_tx (sample_tx 1 [(1000, 0)] [990000]) (sample_chain 1) 0).2.accept_tx (sample_tx 2 [(1, 0)] [490000])
    (sample_chain 1) 0 |>.2

theorem sample_family_reachable : Reachable sample_family :=
  .step (.step .new (.accept_tx (sample_tx 1 [(1000, 0)] [990000]) (sample_chain 1) 0) trivial)
    (.accept_tx (sample_tx 2 [(1, 0)] [490000]) (sample_chain 1) 0) trivial

theorem sample_family_acyclic : Acyclic sample_family := by
  apply Acyclic.of_rank BitVec.toNat
  decide +kernel

end

end Mempool

end AvilaNode
