import AvilaNode.PoolIndexes

/-! Parents and children in the pool, and what a recursive removal takes. -/

namespace AvilaNode

open Layers Relation ClosureWalk

namespace Mempool

abbrev Child (m : Mempool) (a b : Txid) : Prop := Succ m.children a b

abbrev Descends (m : Mempool) (a b : Txid) : Prop := TransGen m.Child a b

variable {m t : Mempool} {a b : Txid} {tx : Transaction}

theorem mem_children : b ∈ m.children a ↔
    ∃ entry, m.map.lookup a = some entry ∧ ∃ vout < entry.tx.outputs.length, m.spends.lookup ⟨a, vout⟩ = some b := by
  unfold children
  cases h : m.map.lookup a with
  | none => simp
  | some entry => simp [List.mem_filterMap]

theorem mem_descendant_txids : b ∈ m.descendant_txids a ↔ m.Descends a b := by
  have hlen : ((toList m.spends).map Prod.snd).dedup.length < m.spends.keys.length + 1 := by
    have hle := (List.dedup_sublist ((toList m.spends).map Prod.snd)).length_le
    rw [List.length_map] at hle
    rw [keys_eq_toList, List.length_map]
    exact Nat.lt_succ_of_le hle
  apply mem_spread (List.nodup_dedup _) _ hlen
  intro c d hd
  obtain ⟨-, -, vout, -, hs⟩ := mem_children.mp hd
  rw [List.mem_dedup, List.mem_map]
  exact ⟨_, mem_toList.mpr hs, rfl⟩

theorem Descends.parent_pooled (h : m.Descends a b) : m.body a ≠ none := by
  obtain ⟨c, hc, -⟩ := TransGen.head'_iff.mp h
  obtain ⟨entry, he, -⟩ := mem_children.mp hc
  rw [Ne, body_eq_none, he]
  exact Option.some_ne_none entry

theorem descendant_txids_nodup (m : Mempool) (a : Txid) : (m.descendant_txids a).Nodup :=
  spread_nodup _ _ .nil

theorem mem_parents : a ∈ m.parents tx ↔ (∃ input ∈ tx.inputs, input.previous_output.txid = a) ∧ m.contains a := by
  rw [parents, List.mem_filter, List.mem_map]

theorem mem_parents_of : a ∈ m.parents_of b ↔ ∃ entry, m.map.lookup b = some entry ∧ a ∈ m.parents entry.tx := by
  unfold parents_of
  cases h : m.map.lookup b with
  | none => simp
  | some entry => simp

theorem mem_ancestors_of : a ∈ m.ancestors_of tx ↔ ∃ p ∈ m.parents tx, ReflTransGen (Succ m.parents_of) p a := by
  have hnodes : ∀ b, b ∉ m.map.keys → m.parents_of b = [] := by
    intro b hb
    rw [mem_keys_iff, Bool.not_eq_true, Option.isSome_eq_false_iff, Option.isNone_iff_eq_none] at hb
    rw [parents_of, hb]
  have hfuel : (m.parents tx).reverse.length + (m.map.keys.map fun b => (m.parents_of b).length).sum ≤
      m.ancestor_fuel tx := by
    apply Nat.add_le_add_right
    rw [List.length_reverse, parents]
    exact (List.length_filter_le _ _).trans (List.length_map _).le
  unfold ancestors_of
  rw [mem_walk m.map.nodupKeys hnodes hfuel]
  simp only [List.mem_reverse]

theorem ancestors_pooled (h : a ∈ m.ancestors_of tx) : m.body a ≠ none := by
  rw [← Option.isSome_iff_ne_none, ← contains_eq]
  obtain ⟨p, hp, hpath⟩ := mem_ancestors_of.mp h
  cases hpath with
  | refl => exact (mem_parents.mp hp).2
  | tail _ hc =>
    obtain ⟨entry, -, ha⟩ := mem_parents_of.mp hc
    exact (mem_parents.mp ha).2

theorem ancestors_of_nodup (m : Mempool) (tx : Transaction) : (m.ancestors_of tx).Nodup := walk_nodup _ _ .nil

section

variable (h : SameTxs m t)
include h

theorem SameTxs.contains (a : Txid) : t.contains a = m.contains a := by
  have ht := congrArg Option.isSome (h.tx_at a)
  rwa [Mempool.tx_at, Option.isSome_map, Mempool.tx_at, Option.isSome_map] at ht

theorem SameTxs.lookup_none (he : t.map.lookup a = none) : m.map.lookup a = none := by
  have hc := h.contains a
  rw [Mempool.contains, he] at hc
  exact Option.isSome_eq_false_iff.mp hc.symm |> Option.isNone_iff_eq_none.mp

theorem SameTxs.children : t.children = m.children := by
  funext a
  unfold Mempool.children
  rw [h.spends]
  cases he : t.map.lookup a with
  | none => rw [h.lookup_none he]
  | some entry =>
    obtain ⟨entry', he', htx, -⟩ := h.lookup he
    rw [he']
    dsimp only
    rw [htx]

theorem SameTxs.parents (tx : Transaction) : t.parents tx = m.parents tx := by
  unfold Mempool.parents
  congr 1
  funext a
  exact h.contains a

theorem SameTxs.parents_of : t.parents_of = m.parents_of := by
  funext a
  unfold Mempool.parents_of
  cases he : t.map.lookup a with
  | none => rw [h.lookup_none he]
  | some entry =>
    obtain ⟨entry', he', htx, -⟩ := h.lookup he
    rw [he']
    dsimp only
    rw [htx, h.parents]

end

variable {entry : MempoolEntry} {id : Txid}

theorem lookup_of_body (h : t.body id = m.body id) (he : t.map.lookup id = some entry) :
    ∃ entry', m.map.lookup id = some entry' ∧ entry'.body = entry.body := by
  rw [body_of_lookup he, body] at h
  exact Option.map_eq_some_iff.mp h.symm

section

variable (h : Shrinks m t)
include h

theorem Shrinks.lookup (he : t.map.lookup id = some entry) :
    ∃ entry', m.map.lookup id = some entry' ∧ entry'.body = entry.body := by
  apply lookup_of_body _ he
  refine (h.body id).resolve_left fun hb => ?_
  rw [body_eq_none, he] at hb
  cases hb

theorem Shrinks.child (hc : t.Child a b) : m.Child a b := by
  obtain ⟨entry, he, vout, hv, hs⟩ := mem_children.mp hc
  obtain ⟨entry', he', hbody⟩ := h.lookup he
  have htx := MempoolEntry.tx_of_body hbody
  refine mem_children.mpr ⟨entry', he', vout, htx ▸ hv, ?_⟩
  rcases h.spends ⟨a, vout⟩ with hn | hn
  · rw [hn] at hs
    cases hs
  · rw [← hn, hs]

theorem Shrinks.descends (hd : t.Descends a b) : m.Descends a b :=
  hd.lift id fun _ _ => h.child

theorem Shrinks.contains (hc : t.contains a = true) : m.contains a = true := by
  rw [contains_eq] at hc ⊢
  rcases h.body a with hb | hb
  · rw [hb] at hc
    cases hc
  · rw [← hb]
    exact hc

theorem Shrinks.parents (ha : a ∈ t.parents tx) : a ∈ m.parents tx := by
  rw [mem_parents] at ha ⊢
  exact ⟨ha.1, h.contains ha.2⟩

theorem Shrinks.parents_of (hb : b ∈ t.parents_of a) : b ∈ m.parents_of a := by
  obtain ⟨entry, he, hp⟩ := mem_parents_of.mp hb
  obtain ⟨entry', he', hbody⟩ := h.lookup he
  refine mem_parents_of.mpr ⟨entry', he', ?_⟩
  rw [MempoolEntry.tx_of_body hbody]
  exact h.parents hp

theorem Shrinks.ancestors_of (tx : Transaction) : t.ancestors_of tx ⊆ m.ancestors_of tx := by
  intro a ha
  obtain ⟨p, hp, hpath⟩ := mem_ancestors_of.mp ha
  exact mem_ancestors_of.mpr ⟨p, h.parents hp, hpath.lift (fun id => id) fun _ _ hb => h.parents_of hb⟩

theorem Shrinks.descendant_txids (a : Txid) : t.descendant_txids a ⊆ m.descendant_txids a := by
  intro d hd
  rw [mem_descendant_txids] at hd ⊢
  exact h.descends hd

end

theorem SameTxs.mem_ancestors_of (h : SameTxs m t) : a ∈ t.ancestors_of tx ↔ a ∈ m.ancestors_of tx := by
  rw [Mempool.mem_ancestors_of, Mempool.mem_ancestors_of, h.parents, h.parents_of]

theorem SameTxs.descendant_txids (h : SameTxs m t) : t.descendant_txids = m.descendant_txids := by
  funext a
  unfold Mempool.descendant_txids
  rw [h.children, h.spends]

def Acyclic (m : Mempool) : Prop := ∀ id, ¬ m.Descends id id

theorem Acyclic.of_rank (rank : Txid → ℕ)
    (h : m.map.keys.all (fun a => (m.children a).all fun b => decide (rank a < rank b)) = true) : Acyclic m := by
  have hchild : ∀ {a b : Txid}, m.Child a b → rank a < rank b := by
    intro a b hc
    obtain ⟨entry, he, -⟩ := mem_children.mp hc
    have hkey : a ∈ m.map.keys := by
      rw [mem_keys_iff, he]
      rfl
    exact of_decide_eq_true (List.all_eq_true.mp (List.all_eq_true.mp h a hkey) b hc)
  have hless : ∀ {a b : Txid}, m.Descends a b → rank a < rank b := by
    intro a b hd
    induction hd with
    | single hc => exact hchild hc
    | tail _ hc ih => exact ih.trans (hchild hc)
  exact fun id hd => Nat.lt_irrefl _ (hless hd)

theorem Acyclic.shrinks (h : Acyclic m) (hs : Shrinks m t) : Acyclic t :=
  fun id hd => h id (hs.descends hd)

theorem descendants_lt (h : Acyclic m) (hc : m.Child a b) :
    (m.descendant_txids b).length < (m.descendant_txids a).length := by
  have hsub : m.descendant_txids b ⊆ (m.descendant_txids a).erase b := by
    intro d hd
    rw [mem_descendant_txids] at hd
    have hne : d ≠ b := by
      rintro rfl
      exact h d hd
    rw [List.mem_erase_of_ne hne, mem_descendant_txids]
    exact .head hc hd
  have hle := (List.subperm_of_subset (descendant_txids_nodup m b) hsub).length_le
  have hmem : b ∈ m.descendant_txids a := mem_descendant_txids.mpr (.single hc)
  rw [List.length_erase_of_mem hmem] at hle
  have := List.length_pos_of_mem hmem
  omega

section

variable [Platform]

variable {m t : Mempool} {a b txid : Txid} {cause : RemovalCause} {now height : ℕ}

theorem Indexes.child_pooled (h : Indexes m) (hc : m.Child a b) : m.body b ≠ none := by
  obtain ⟨-, -, vout, -, hs⟩ := mem_children.mp hc
  obtain ⟨entry, he, -⟩ := (h.spends _ _).mp hs
  rw [Ne, body_eq_none, he]
  exact Option.some_ne_none entry

theorem Indexes.descends_pooled (h : Indexes m) (hd : m.Descends a b) : m.body b ≠ none := by
  cases hd with
  | single hc => exact h.child_pooled hc
  | tail _ hc => exact h.child_pooled hc

theorem Indexes.descendants_le (h : Indexes m) (a : Txid) : (m.descendant_txids a).length ≤ m.len := by
  apply (List.subperm_of_subset (descendant_txids_nodup m a) _).length_le
  intro d hd
  rw [mem_keys_iff, Option.isSome_iff_ne_none, Ne, ← body_eq_none]
  exact h.descends_pooled (mem_descendant_txids.mp hd)

structure Closed (m t : Mempool) : Prop extends Shrinks m t where
  children : ∀ {a b : Txid}, m.Child a b → m.body a ≠ none → t.body a = none → t.body b = none

omit [Platform] in
theorem Closed.refl (m : Mempool) : Closed m m := ⟨.refl m, fun _ hm ht => absurd ht hm⟩

theorem child_of_pooled (hm : Indexes m) (ht : Indexes t) (h : Shrinks m t) (hc : m.Child a b)
    (ha : t.body a ≠ none) (hb : t.body b ≠ none) : t.Child a b := by
  obtain ⟨entry, he, vout, hv, hs⟩ := mem_children.mp hc
  obtain ⟨spender, hspender, hop⟩ := (hm.spends _ _).mp hs
  obtain ⟨entry', he', hbody⟩ := lookup_of_body ((h.body a).resolve_left ha).symm he
  obtain ⟨spender', hspender', hbody'⟩ := lookup_of_body ((h.body b).resolve_left hb).symm hspender
  have htx := MempoolEntry.tx_of_body hbody
  have htx' := MempoolEntry.tx_of_body hbody'
  have hop' : (⟨a, vout⟩ : OutPoint) ∈ spender'.tx.inputs.map TxIn.previous_output := by
    rw [htx']
    exact hop
  exact mem_children.mpr ⟨entry', he', vout, htx ▸ hv, (ht.spends _ _).mpr ⟨spender', hspender', hop'⟩⟩

variable {u : Mempool}

theorem Closed.trans (hm : Indexes m) (ht : Indexes t) (h : Closed m t) (h' : Closed t u) :
    Closed m u := by
  refine ⟨h.toShrinks.trans h'.toShrinks, fun {a b} hc ha hu => ?_⟩
  have hgone : t.body b = none → u.body b = none := fun hb => (h'.body b).elim id fun he => he.trans hb
  by_cases hta : t.body a = none
  · exact hgone (h.children hc ha hta)
  · by_cases htb : t.body b = none
    · exact hgone htb
    · exact h'.children (child_of_pooled hm ht h.toShrinks hc hta htb) hta hu

theorem Closed.descends (hm : Indexes m) (h : Closed m t) (hd : m.Descends a b) (ha : m.body a ≠ none)
    (ht : t.body a = none) : t.body b = none := by
  induction hd with
  | single hc => exact h.children hc ha ht
  | tail hd hc ih => exact h.children hc (hm.descends_pooled hd) ih

theorem remove_fold_shrinks (cause : RemovalCause) (now height fuel : ℕ) (rows : List Txid) (m : Mempool) :
    Shrinks m (rows.foldl (Mempool.remove_walk cause now height fuel) m) := by
  induction rows generalizing m with
  | nil => exact .refl m
  | cons row rows ih =>
    have hstep : Shrinks m (Mempool.remove_walk cause now height fuel m row) :=
      remove_walk_keeps (fun t id h => h.trans (.remove_inner t id _ _ _)) fuel (.refl m) row
    exact hstep.trans (ih _)

/-- What the removal of a childless entry keeps, a recursive removal with fuel for the longest chain keeps. -/
theorem remove_walk_childless {P : Mempool → Prop} {fuel : ℕ} (hindexes : ∀ {t : Mempool}, P t → Indexes t)
    (hacyclic : ∀ {t : Mempool}, P t → Acyclic t)
    (hinner : ∀ {t : Mempool} {txid : Txid}, P t → t.children txid = [] → P (t.remove_inner txid cause now height))
    (hp : P m) (hfuel : (m.descendant_txids txid).length < fuel) :
    P (remove_walk cause now height fuel m txid) := by
  induction fuel generalizing m txid with
  | zero => exact absurd hfuel (Nat.not_lt_zero _)
  | succ fuel ih =>
    have hchildren : ∀ (rows : List Txid), (∀ c ∈ rows, m.Child txid c) → ∀ {t : Mempool}, P t → Shrinks m t →
        P (rows.foldl (Mempool.remove_walk cause now height fuel) t) ∧
          ∀ c ∈ rows, (rows.foldl (Mempool.remove_walk cause now height fuel) t).body c = none := by
      intro rows
      induction rows with
      | nil => exact fun _ _ ht _ => ⟨ht, fun c hc => absurd hc List.not_mem_nil⟩
      | cons c rows ih' =>
        intro hrows t ht hs
        rw [List.foldl_cons]
        have hless : (t.descendant_txids c).length < fuel := by
          have hle : (t.descendant_txids c).length ≤ (m.descendant_txids c).length := by
            apply (List.subperm_of_subset (descendant_txids_nodup t c) _).length_le
            intro d hd
            rw [mem_descendant_txids] at hd ⊢
            exact hs.descends hd
          have := descendants_lt (hacyclic hp) (hrows c List.mem_cons_self)
          omega
        have hgone : (Mempool.remove_walk cause now height fuel t c).body c = none := by
          cases fuel with
          | zero => exact absurd hless (Nat.not_lt_zero _)
          | succ fuel => rw [Mempool.remove_walk, remove_inner_body, if_pos rfl]
        have hstep := remove_fold_shrinks cause now height fuel [c] t
        obtain ⟨hu, hall⟩ := ih' (fun c' hc' => hrows c' (List.mem_cons_of_mem c hc')) (ih ht hless) (hs.trans hstep)
        refine ⟨hu, fun c' hc' => ?_⟩
        rcases List.mem_cons.mp hc' with rfl | hc'
        · have hrest := remove_fold_shrinks cause now height fuel rows
            (Mempool.remove_walk cause now height fuel t c')
          exact (hrest.body c').elim id fun hb => hb.trans hgone
        · exact hall c' hc'
    rw [Mempool.remove_walk]
    obtain ⟨ht, hall⟩ := hchildren (m.children txid) (fun _ hc => hc) hp (.refl m)
    have hs := remove_fold_shrinks cause now height fuel (m.children txid) m
    apply hinner ht
    apply List.eq_nil_iff_forall_not_mem.mpr
    intro c hc
    exact (hindexes ht).child_pooled hc (hall c (hs.child hc))

theorem Closed.remove_walk {fuel : ℕ} (hm : Indexes m) (hacyclic : Acyclic m)
    (hfuel : (m.descendant_txids txid).length < fuel) :
    Closed m (remove_walk cause now height fuel m txid) := by
  suffices h : Indexes (Mempool.remove_walk cause now height fuel m txid) ∧
      Closed m (Mempool.remove_walk cause now height fuel m txid) from h.2
  apply remove_walk_childless (P := fun t => Indexes t ∧ Closed m t) And.left fun h => hacyclic.shrinks h.2.toShrinks
  · intro t id h hnone
    obtain ⟨ht, hclosed⟩ := h
    refine ⟨ht.remove_inner id _ _ _, hclosed.toShrinks.trans (.remove_inner _ _ _ _ _), fun {a b} hc ha hgone => ?_⟩
    rw [remove_inner_body] at hgone ⊢
    split
    · rfl
    by_cases hta : t.body a = none
    · exact hclosed.children hc ha hta
    by_contra hb
    have hchild := child_of_pooled hm ht hclosed.toShrinks hc hta hb
    split at hgone
    · next heq =>
      rw [heq] at hchild
      rw [Child, Succ, hnone] at hchild
      cases hchild
    · exact hta hgone
  · exact ⟨hm, .refl m⟩
  · exact hfuel

theorem remove_walk_only {root : Txid} (fuel : ℕ) (hs : Shrinks m t) (hroot : ReflTransGen m.Child root txid)
    (ht : t.body id ≠ none) (hgone : (Mempool.remove_walk cause now height fuel t txid).body id = none) :
    ReflTransGen m.Child root id := by
  induction fuel generalizing t txid with
  | zero => exact absurd hgone ht
  | succ fuel ih =>
    rw [Mempool.remove_walk, remove_inner_body] at hgone
    split at hgone
    · next heq => exact heq ▸ hroot
    have hfold : ∀ (rows : List Txid), (∀ c ∈ rows, m.Child txid c) → ∀ {u : Mempool}, Shrinks m u →
      u.body id ≠ none →
        (rows.foldl (Mempool.remove_walk cause now height fuel) u).body id = none →
          ReflTransGen m.Child root id := by
      intro rows
      induction rows with
      | nil => exact fun _ _ _ hu hg => absurd hg hu
      | cons c rows ih' =>
        intro hrows u hsu hu hg
        rw [List.foldl_cons] at hg
        by_cases hc : (Mempool.remove_walk cause now height fuel u c).body id = none
        · exact ih hsu (hroot.tail (hrows c List.mem_cons_self)) hu hc
        · apply ih' (fun c' hc' => hrows c' (List.mem_cons_of_mem c hc')) _ hc hg
          exact hsu.trans (remove_fold_shrinks cause now height fuel [c] u)
    exact hfold (t.children txid) (fun c hc => hs.child hc) hs ht hgone

def Logs (cause : RemovalCause) (m t : Mempool) : Prop :=
  ∃ events, t.lifecycle = m.lifecycle ++ events ∧ (events.map LifecycleEvent.txid).Nodup ∧
    (∀ e ∈ events, e.cause = cause) ∧
    total MempoolEntry.fee m.map = total MempoolEntry.fee t.map + (events.map LifecycleEvent.fee).sum ∧
    ∀ id fee, (∃ e ∈ events, e.txid = id ∧ e.fee = fee) ↔ (m.body id).map MempoolEntry.fee = some fee ∧
      t.body id = none

omit [Platform] in
theorem Logs.refl (cause : RemovalCause) (m : Mempool) : Logs cause m m := by
  refine ⟨[], (List.append_nil _).symm, .nil, fun _ h => absurd h List.not_mem_nil, (add_zero _).symm, fun id fee =>
    ?_⟩
  constructor
  · rintro ⟨e, he, -⟩
    cases he
  · rintro ⟨hfee, hgone⟩
    rw [hgone] at hfee
    cases hfee

omit [Platform] in
theorem Logs.trans (hs : Shrinks m t) (hs' : Shrinks t u) (h : Logs cause m t) (h' : Logs cause t u) :
    Logs cause m u := by
  obtain ⟨events, hl, hn, hcause, hfees, hmem⟩ := h
  obtain ⟨events', hl', hn', hcause', hfees', hmem'⟩ := h'
  refine ⟨events ++ events', ?_, ?_, ?_, ?_, fun id fee => ?_⟩
  · rw [hl', hl, List.append_assoc]
  · rw [List.map_append]
    apply hn.append hn'
    intro id hid hid'
    obtain ⟨e, he, rfl⟩ := List.mem_map.mp hid
    obtain ⟨e', he', heq⟩ := List.mem_map.mp hid'
    have hgone := ((hmem e.txid e.fee).mp ⟨e, he, rfl, rfl⟩).2
    have hthere := ((hmem' e.txid e'.fee).mp ⟨e', he', heq, rfl⟩).1
    rw [hgone] at hthere
    cases hthere
  · intro e he
    exact (List.mem_append.mp he).elim (hcause e) (hcause' e)
  · rw [hfees, hfees', List.map_append, List.sum_append]
    omega
  · constructor
    · rintro ⟨e, he, hid, hfee⟩
      rcases List.mem_append.mp he with he | he
      · obtain ⟨hm, ht⟩ := (hmem id fee).mp ⟨e, he, hid, hfee⟩
        exact ⟨hm, (hs'.body id).elim (fun h => h) fun hb => hb.trans ht⟩
      obtain ⟨ht, hu⟩ := (hmem' id fee).mp ⟨e, he, hid, hfee⟩
      refine ⟨?_, hu⟩
      rcases hs.body id with hb | hb
      · rw [hb] at ht
        cases ht
      · rw [← hb, ht]
    · rintro ⟨hm, hu⟩
      rcases hs.body id with hb | hb
      · obtain ⟨e, he, hid, hfee⟩ := (hmem id fee).mpr ⟨hm, hb⟩
        exact ⟨e, List.mem_append_left _ he, hid, hfee⟩
      · obtain ⟨e, he, hid, hfee⟩ := (hmem' id fee).mpr ⟨by rw [hb, hm], hu⟩
        exact ⟨e, List.mem_append_right _ he, hid, hfee⟩

theorem Logs.remove_inner (m : Mempool) (txid : Txid) (cause : RemovalCause) (now height : ℕ) :
    Logs cause m (m.remove_inner txid cause now height) := by
  cases he : m.map.lookup txid with
  | none =>
    rw [remove_inner_none he]
    exact .refl cause m
  | some entry =>
    have hs := remove_inner_sums he cause now height
    refine ⟨[⟨txid, cause, entry.fee, entry.vsize, entry.time, now, height⟩], ?_, List.nodup_singleton _, ?_, ?_, ?_⟩
    · rw [hs.rest]
      rfl
    · intro e hmem
      rw [List.mem_singleton.mp hmem]
    · rw [hs.total _ fun _ _ => MempoolEntry.fee_of_body, total_erase he, add_comm, List.map_singleton,
        List.sum_singleton]
      rfl
    · intro id fee
      rw [remove_inner_body]
      constructor
      · rintro ⟨e, hmem, hid, hfee⟩
        rw [List.mem_singleton.mp hmem] at hid hfee
        subst hid hfee
        rw [body_of_lookup he, if_pos rfl]
        exact ⟨rfl, rfl⟩
      · rintro ⟨hm, hgone⟩
        split at hgone
        · next heq =>
          rw [heq, body_of_lookup he] at hm
          exact ⟨_, List.mem_singleton_self _, heq.symm, Option.some.inj hm⟩
        · rw [hgone] at hm
          cases hm

structure Takes (cause : RemovalCause) (roots : List Txid) (m t : Mempool) : Prop extends Closed m t where
  gone : ∀ id ∈ roots, t.body id = none
  only : ∀ {id : Txid}, m.body id ≠ none → t.body id = none → ∃ root ∈ roots, ReflTransGen m.Child root id
  log : Logs cause m t

theorem Takes.trans {roots roots' : List Txid} (hm : Indexes m) (ht : Indexes t) (h : Takes cause roots m t)
    (h' : Takes cause roots' t u) : Takes cause (roots ++ roots') m u where
  toClosed := h.toClosed.trans hm ht h'.toClosed
  gone id hid := by
    rcases List.mem_append.mp hid with hid | hid
    · exact (h'.body id).elim (fun hb => hb) fun hb => hb.trans (h.gone id hid)
    · exact h'.gone id hid
  only {id} hid hgone := by
    by_cases hb : t.body id = none
    · obtain ⟨root, hroot, hpath⟩ := h.only hid hb
      exact ⟨root, List.mem_append_left _ hroot, hpath⟩
    · obtain ⟨root, hroot, hpath⟩ := h'.only hb hgone
      exact ⟨root, List.mem_append_right _ hroot, hpath.lift (fun id => id) fun _ _ => h.child⟩
  log := h.log.trans h.toShrinks h'.toShrinks h'.log

theorem remove_recursive_takes (hm : Indexes m) (hacyclic : Acyclic m) (txid : Txid) (cause : RemovalCause)
    (now height : ℕ) :
    Takes cause [txid] m (m.remove_recursive_inner txid cause now height) where
  toClosed := Closed.remove_walk hm hacyclic (Nat.lt_succ_of_le (hm.descendants_le txid))
  gone id hid := by
    rw [List.mem_singleton.mp hid]
    exact remove_recursive_gone m txid cause now height
  only hid hgone := ⟨txid, List.mem_singleton_self _, remove_walk_only _ (.refl m) .refl hid hgone⟩
  log := by
    suffices h : Shrinks m (m.remove_recursive_inner txid cause now height) ∧
        Logs cause m (m.remove_recursive_inner txid cause now height) from h.2
    apply remove_recursive_keeps (P := fun t => Shrinks m t ∧ Logs cause m t)
    · intro t id h
      exact ⟨h.1.trans (.remove_inner _ _ _ _ _), h.2.trans h.1 (.remove_inner _ _ _ _ _) (.remove_inner _ _ _ _ _)⟩
    · exact ⟨.refl m, .refl cause m⟩

theorem remove_each_takes (txids : List Txid) (hm : Indexes m) (hacyclic : Acyclic m) :
    Takes cause txids m (m.remove_each txids cause now height) := by
  induction txids generalizing m with
  | nil =>
    exact ⟨.refl m, fun _ h => absurd h List.not_mem_nil, fun hid hgone => absurd hgone hid, .refl cause m⟩
  | cons txid txids ih =>
    have hfirst := remove_recursive_takes hm hacyclic txid cause now height
    have ht : Indexes (m.remove_recursive_inner txid cause now height) :=
      remove_recursive_keeps (fun _ id hp => hp.remove_inner id _ _ _) hm txid
    exact hfirst.trans hm ht (ih ht (hacyclic.shrinks hfirst.toShrinks))

def Feeds (m : Mempool) (a : Txid) (tx : Transaction) : Prop :=
  ∃ entry, m.map.lookup a = some entry ∧
    ∃ vout < entry.tx.outputs.length, (⟨a, vout⟩ : OutPoint) ∈ tx.inputs.map TxIn.previous_output

omit [Platform] in
theorem Feeds.parent (h : m.Feeds a tx) : a ∈ m.parents tx := by
  obtain ⟨entry, he, vout, -, hop⟩ := h
  obtain ⟨input, hinput, heq⟩ := List.mem_map.mp hop
  refine mem_parents.mpr ⟨⟨input, hinput, by rw [heq]⟩, ?_⟩
  rw [contains, he]
  rfl

theorem Indexes.parent_of_child (h : Indexes m) (hc : m.Child a b) : a ∈ m.parents_of b := by
  obtain ⟨entry, he, vout, hv, hs⟩ := mem_children.mp hc
  obtain ⟨spender, hspender, hop⟩ := (h.spends _ _).mp hs
  have hfeeds : m.Feeds a spender.tx := ⟨entry, he, vout, hv, hop⟩
  exact mem_parents_of.mpr ⟨spender, hspender, hfeeds.parent⟩

theorem Indexes.ancestor_of_path (h : Indexes m) {p : Txid} (hpath : ReflTransGen m.Child a p) (hfeeds : m.Feeds p tx) :
    a ∈ m.ancestors_of tx :=
  mem_ancestors_of.mpr ⟨p, hfeeds.parent, hpath.swap.lift (fun id => id) fun _ _ hc => h.parent_of_child hc⟩

theorem index_contains (m : Mempool) (txid a : Txid) (entry : MempoolEntry) :
    (m.index txid entry).contains a = (decide (a = txid) || m.contains a) := by
  rw [contains_eq, contains_eq, index_body]
  by_cases h : a = txid <;> simp [h]

theorem lookup_index_spends (m : Mempool) (txid : Txid) (entry : MempoolEntry) (op : OutPoint) :
    (m.index txid entry).spends.lookup op =
      if op ∈ entry.tx.inputs.map TxIn.previous_output then some txid else m.spends.lookup op := by
  split
  · next hop =>
    obtain ⟨input, hinput, rfl⟩ := List.mem_map.mp hop
    apply lookup_insertAll_of_mem
    · exact List.mem_map.mpr ⟨input, hinput, rfl⟩
    · intro w hw
      obtain ⟨input', -, heq⟩ := List.mem_map.mp hw
      exact (Prod.mk.inj heq).2.symm
  · next hop =>
    apply lookup_insertAll_of_notMem
    intro w hw
    obtain ⟨input, hinput, heq⟩ := List.mem_map.mp hw
    exact hop (List.mem_map.mpr ⟨input, hinput, (Prod.mk.inj heq).1⟩)

theorem index_child (hfresh : m.map.lookup txid = none)
    (hspends : ∀ op ∈ entry.tx.inputs.map TxIn.previous_output, m.spends.lookup op = none)
    (hself : ∀ input ∈ entry.tx.inputs, input.previous_output.txid ≠ txid) :
    (m.index txid entry).Child a b ↔ m.Child a b ∨ (b = txid ∧ m.Feeds a entry.tx) ∨
      (a = txid ∧ ∃ vout < entry.tx.outputs.length, m.spends.lookup ⟨txid, vout⟩ = some b) := by
  have hlookup : ∀ a, (m.index txid entry).map.lookup a = if a = txid then some entry else m.map.lookup a := fun a =>
    lookup_insert_eq m.map txid a entry
  constructor
  · intro h
    obtain ⟨entry', he, vout, hv, hs⟩ := mem_children.mp h
    rw [lookup_index_spends] at hs
    rw [hlookup] at he
    split at he
    · next heq =>
      cases he
      subst heq
      split at hs
      · next hop =>
        obtain ⟨input, hinput, hprev⟩ := List.mem_map.mp hop
        exact absurd (congrArg OutPoint.txid hprev) (hself input hinput)
      · exact Or.inr (Or.inr ⟨rfl, vout, hv, hs⟩)
    · split at hs
      · next hop =>
        cases hs
        exact Or.inr (Or.inl ⟨rfl, entry', he, vout, hv, hop⟩)
      · exact Or.inl (mem_children.mpr ⟨entry', he, vout, hv, hs⟩)
  · rintro (h | ⟨rfl, entry', he, vout, hv, hop⟩ | ⟨rfl, vout, hv, hs⟩)
    · obtain ⟨entry', he, vout, hv, hs⟩ := mem_children.mp h
      refine mem_children.mpr ⟨entry', ?_, vout, hv, ?_⟩
      · rw [hlookup, if_neg, he]
        rintro rfl
        rw [hfresh] at he
        cases he
      · rw [lookup_index_spends, if_neg, hs]
        intro hop
        rw [hspends _ hop] at hs
        cases hs
    · refine mem_children.mpr ⟨entry', ?_, vout, hv, ?_⟩
      · rw [hlookup, if_neg, he]
        rintro rfl
        rw [hfresh] at he
        cases he
      · rw [lookup_index_spends, if_pos hop]
    · refine mem_children.mpr ⟨entry, ?_, vout, hv, ?_⟩
      · rw [hlookup, if_pos rfl]
      · rw [lookup_index_spends, if_neg, hs]
        intro hop
        rw [hspends _ hop] at hs
        cases hs

end

end Mempool

end AvilaNode
