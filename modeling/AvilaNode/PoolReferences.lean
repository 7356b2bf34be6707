import AvilaNode.CoinChanges
import AvilaNode.PoolLineage
import AvilaNode.ReplacementFees

/-! What the inputs of pooled transactions refer to, over every run of calls and changes of the chain. -/

namespace AvilaNode

open Layers Relation ClosureWalk

section

variable [Platform]

namespace Mempool

structure Referred (ids : Identifiers) (Others : OutPoint → Prop) (m : Mempool) : Prop extends Ranked ids m where
  resolved : ∀ {id : Txid} {entry : MempoolEntry}, m.map.lookup id = some entry → ∀ input ∈ entry.tx.inputs,
    Others input.previous_output ∨ m.HasOutput input.previous_output

variable {ids : Identifiers} {Others Others' : OutPoint → Prop} {m : Mempool}

theorem Referred.new : Referred ids Others Mempool.new where
  toRanked := .new
  resolved h := by cases h

variable {t : Mempool}

omit [Platform] in
theorem SameTxs.has_output (h : SameTxs m t) {op : OutPoint} : t.HasOutput op ↔ m.HasOutput op := by
  have hone : ∀ u : Mempool, u.HasOutput op ↔ ∃ row, u.tx_at op.txid = some row ∧ op.vout < row.1.outputs.length := by
    intro u
    unfold HasOutput Mempool.tx_at
    constructor
    · rintro ⟨entry, he, hv⟩
      exact ⟨_, Option.map_eq_some_iff.mpr ⟨entry, he, rfl⟩, hv⟩
    · rintro ⟨row, hrow, hv⟩
      obtain ⟨entry, he, rfl⟩ := Option.map_eq_some_iff.mp hrow
      exact ⟨entry, he, hv⟩
  rw [hone, hone, h.tx_at]

section

variable (h : Referred ids Others m)
include h

theorem Referred.same (hs : SameTxs m t) : Referred ids Others t where
  toRanked := h.toRanked.same hs
  resolved he input hinput := by
    obtain ⟨entry', he', htx, -⟩ := hs.lookup he
    rw [hs.has_output]
    exact h.resolved he' input (htx ▸ hinput)

theorem Referred.change
    (hothers : ∀ {id : Txid} {entry : MempoolEntry}, m.map.lookup id = some entry → ∀ input ∈ entry.tx.inputs,
      Others input.previous_output → Others' input.previous_output ∨ m.HasOutput input.previous_output) :
    Referred ids Others' m where
  toRanked := h.toRanked
  resolved he input hinput := by
    rcases h.resolved he input hinput with ho | hh
    · exact hothers he input hinput ho
    · exact Or.inr hh

theorem Referred.mono (hothers : ∀ op, Others op → Others' op) : Referred ids Others' m :=
  h.change fun _ input _ ho => Or.inl (hothers input.previous_output ho)

theorem Referred.closed (ht : Indexes t) (hc : Closed m t) :
    Referred ids Others t where
  toRanked := h.toRanked.shrinks ht hc.toShrinks
  resolved {id entry} he input hinput := by
    obtain ⟨entry', he', hbody⟩ := hc.toShrinks.lookup he
    rw [← MempoolEntry.tx_of_body hbody] at hinput
    rcases h.resolved he' input hinput with ho | ⟨parent, hparent, hv⟩
    · exact Or.inl ho
    have hspend : m.spends.lookup input.previous_output = some id :=
      (h.indexes.spends _ _).mpr ⟨entry', he', List.mem_map_of_mem hinput⟩
    have hchild : m.Child input.previous_output.txid id :=
      mem_children.mpr ⟨parent, hparent, input.previous_output.vout, hv, hspend⟩
    have hkept : t.body input.previous_output.txid ≠ none := by
      intro hgone
      have hid := hc.children hchild (Descends.parent_pooled (.single hchild)) hgone
      rw [body_of_lookup he] at hid
      cases hid
    obtain ⟨parent', hparent', heq⟩ := lookup_of_body ((hc.body _).resolve_left hkept).symm hparent
    exact Or.inr ⟨parent', hparent', by rwa [MempoolEntry.tx_of_body heq]⟩

theorem Referred.remove_recursive (txid : Txid) (cause : RemovalCause) (now height : ℕ) :
    Referred ids Others (m.remove_recursive_inner txid cause now height) := by
  apply h.closed
  · exact remove_recursive_keeps (P := Indexes) (fun _ id hi => hi.remove_inner id cause now height) h.indexes txid
  · exact (remove_recursive_takes h.indexes h.toRanked.acyclic txid cause now height).toClosed

theorem Referred.remove_each (txids : List Txid) (cause : RemovalCause) (now height : ℕ) :
    Referred ids Others (m.remove_each txids cause now height) := by
  apply h.closed
  · exact remove_each_keeps (P := Indexes) (fun _ id hi => hi.remove_inner id cause now height) txids h.indexes
  · exact (remove_each_takes txids h.indexes h.toRanked.acyclic).toClosed

end

theorem Closed.remove_childless {txid : Txid} (h : m.children txid = []) (cause : RemovalCause) (now height : ℕ) :
    Closed m (m.remove_inner txid cause now height) where
  toShrinks := .remove_inner m txid cause now height
  children {a b} hc ha hgone := by
    rw [remove_inner_body] at hgone
    split at hgone
    · next heq =>
      rw [heq, Child, Succ, h] at hc
      cases hc
    · exact absurd hgone ha

theorem Referred.remove_dependents {tx : Transaction} (h : Referred ids (fun op => Others op ∨ tx.Makes op) m)
    (hnamed : ids.Names tx) (now height : ℕ) : Referred ids Others (m.remove_dependents tx now height) := by
  have hs := Shrinks.remove_each m (m.dependents tx) .ReorgDrop now height
  have heach := h.remove_each (m.dependents tx) .ReorgDrop now height
  have hunspent : ∀ vout < tx.outputs.length,
      (m.remove_each (m.dependents tx) .ReorgDrop now height).spends.lookup ⟨Platform.txid tx, vout⟩ = none := by
    intro vout hv
    apply Option.eq_none_iff_forall_ne_some.mpr
    intro id hid
    have hmem : id ∈ m.dependents tx := by
      apply List.mem_filterMap.mpr
      refine ⟨vout, List.mem_range.mpr hv, ?_⟩
      rcases hs.spends ⟨Platform.txid tx, vout⟩ with hn | hn
      · rw [hn] at hid
        cases hid
      · rw [← hn, hid]
    obtain ⟨entry, he, -⟩ := (heach.indexes.spends _ _).mp hid
    have hgone : (m.remove_each (m.dependents tx) .ReorgDrop now height).body id = none := remove_each_gone hmem
    rw [body_of_lookup he] at hgone
    cases hgone
  have hrest : Referred ids Others (m.remove_each (m.dependents tx) .ReorgDrop now height) := by
    apply heach.change
    rintro id entry he input hinput (ho | ⟨htxid, hv⟩)
    · exact Or.inl ho
    have hspend : (m.remove_each (m.dependents tx) .ReorgDrop now height).spends.lookup input.previous_output =
      some id :=
      (heach.indexes.spends _ _).mpr ⟨entry, he, List.mem_map_of_mem hinput⟩
    have hnone := hunspent input.previous_output.vout hv
    rw [← htxid] at hnone
    cases hnone.symm.trans hspend
  apply hrest.closed (hrest.indexes.remove_inner _ _ _ _)
  apply Closed.remove_childless
  apply List.eq_nil_iff_forall_not_mem.mpr
  intro b hb
  obtain ⟨entry, he, vout, hv, hspend⟩ := mem_children.mp hb
  rw [(hrest.named he).outputs, hrest.indexes.keyed he, ← hnamed.outputs] at hv
  cases (hunspent vout hv).symm.trans hspend

omit [Platform] in
theorem HasOutput.index [Platform] {op : OutPoint} (h : m.HasOutput op) {txid : Txid}
    (hfresh : m.map.lookup txid = none)
    (entry : MempoolEntry) : (m.index txid entry).HasOutput op := by
  obtain ⟨parent, hparent, hv⟩ := h
  refine ⟨parent, ?_, hv⟩
  change (m.map.insert txid entry).lookup op.txid = _
  rw [lookup_insert_eq, if_neg, hparent]
  intro heq
  rw [heq, hfresh] at hparent
  cases hparent

section

variable [PoolPolicy]

def KeepsParents (a : Attempt) : Prop :=
  ∀ c high t, a.pool.examine a.tx a.cs a.now = .ok c →
    a.pool.trim c a.tx.encode.length a.now (a.pool.len + 1) none = (some high, t) →
    ∀ input ∈ a.tx.inputs, a.cs.utxo.get input.previous_output = none → t.contains input.previous_output.txid

variable {tx : Transaction} {pend : List Transaction} {a : Attempt}

theorem Referred.pool_entry {cs : Chainstate} {c : Candidate} {now : ℕ} {high : Option (ℤ × ℕ)} {trimmed : Mempool}
    (h : Referred ids (fun op => Others op ∨ tx.Makes op) m) (hcoins : ∀ op, cs.utxo.get op ≠ none → Others op)
    (hnamed : ids.Names tx) (hkept : KeepsParents ⟨m, tx, cs, now⟩) (hexamine : m.examine tx cs now = .ok c)
    (htrim : m.trim c tx.encode.length now (m.len + 1) none = (some high, trimmed)) :
    Referred ids Others ((trimmed.entered tx c now high).pool_entry tx cs c now) := by
  have hc := examine_ok hexamine
  have ht : Referred ids _ (m.trim c tx.encode.length now (m.len + 1) none).2 :=
    trim_keeps (P := Referred ids _) (fun _ id ht => ht.remove_recursive id _ _ _) _ none h
  have hs := Shrinks.trim c tx.encode.length now (m.len + 1) none m
  rw [htrim] at ht hs
  have hu : Referred ids _ (trimmed.entered tx c now high) :=
    (ht.same (raise_rolling_fee_same trimmed high now).same_txs).remove_each c.conflicts _ now c.next_height
  have hfresh := entered_fresh hexamine htrim
  have hspends := entered_spends hexamine htrim hu.indexes
  apply Referred.same _ (SumsOnly.pool_entry _ tx cs c now).same_txs
  have hranked := @Ranked.index _ ids _ hu.toRanked
    ((trimmed.entered tx c now high).entry_of tx cs c now) hnamed hfresh
    hspends rfl
  refine ⟨hranked, fun {id entry} he input hinput => ?_⟩
  change ((trimmed.entered tx c now high).map.insert _ _).lookup id = _ at he
  rw [lookup_insert_eq] at he
  split at he
  · cases he
    by_cases hcoin : cs.utxo.get input.previous_output = none
    · obtain ⟨parent, hparent, hv⟩ := resolve_pooled (resolve_inputs_some hc.spent input hinput) hcoin
      have hpooled := hkept c high trimmed hexamine htrim input hinput hcoin
      have hancestor : input.previous_output.txid ∈ trimmed.ancestors_of tx :=
        mem_ancestors_of.mpr ⟨_, mem_parents.mpr ⟨⟨input, hinput, rfl⟩, hpooled⟩, .refl⟩
      have hbody := entered_kept hc hs ht.indexes ht.toRanked.acyclic high hancestor
      rw [contains_eq, Option.isSome_iff_ne_none] at hpooled
      rw [(hs.body _).resolve_left hpooled] at hbody
      obtain ⟨parent', hparent', heq⟩ := lookup_of_body hbody.symm hparent
      right
      apply HasOutput.index _ hfresh
      exact ⟨parent', hparent', by rwa [MempoolEntry.tx_of_body heq]⟩
    · exact Or.inl (hcoins _ hcoin)
  · rcases hu.resolved he input hinput with (ho | ⟨htxid, hv⟩) | hh
    · exact Or.inl ho
    · refine Or.inr ⟨(trimmed.entered tx c now high).entry_of tx cs c now, ?_, hv⟩
      change ((trimmed.entered tx c now high).map.insert _ _).lookup _ = _
      rw [lookup_insert_eq, if_pos htxid]
    · exact Or.inr (hh.index hfresh _)

structure Refers (ids : Identifiers) (cs : Chainstate) (a : Attempt) : Prop where
  chain : a.cs = cs
  named : ids.Names a.tx
  kept : KeepsParents a

theorem Referred.admits {cs : Chainstate} (hcoins : ∀ op, cs.utxo.get op ≠ none → Others op) :
    Admits (Referred ids Others) (Refers ids cs) where
  quiet hs _ h := h.same hs.same_txs
  remove_recursive txid cause now height h := h.remove_recursive txid cause now height
  enter {m} tx cs c now h hok hexamine := by
    obtain ⟨hchain, hnamed, hkept⟩ := hok
    cases hchain
    cases hrun : m.enter tx cs c now with
    | mk r t =>
      cases r with
      | error e =>
        have htrim : Referred ids Others (m.trim c tx.encode.length now (m.len + 1) none).2 :=
          trim_keeps (P := Referred ids Others) (fun _ id ht => ht.remove_recursive id _ _ _) _ none h
        rw [enter_error hrun] at htrim
        exact htrim
      | ok id =>
        obtain ⟨high, trimmed, htrim, rfl⟩ := enter_ok hrun
        exact (h.mono fun _ => Or.inl).pool_entry hcoins hnamed hkept hexamine htrim

def connect_all (m : Mempool) (blocks : List (Block × ℕ)) : Mempool :=
  blocks.foldl (fun m row => m.on_block_connected row.1 row.2) m

omit [PoolPolicy] in
theorem connected_unspent (h : Indexes m) {block : Block} {conf_height : ℕ} {id : Txid} {entry : MempoolEntry}
    (he : (m.on_block_connected block conf_height).map.lookup id = some entry) {input : TxIn}
    (hinput : input ∈ entry.tx.inputs) : ¬ block.Spends input.previous_output := by
  rintro ⟨tx, htx, hcb, hop⟩
  unfold Mempool.on_block_connected at he
  have hs := remove_rows_shrinks 0 conf_height (block.transactions.flatMap m.dead_by)
    { m with block_since_rolling_fee_bump := true,
             deltas := eraseAll m.deltas (block.transactions.map Platform.txid) }
  obtain ⟨entry', he', hbody⟩ := hs.lookup he
  rw [← MempoolEntry.tx_of_body hbody] at hinput
  have hspend : m.spends.lookup input.previous_output = some id :=
    (h.spends _ _).mpr ⟨entry', he', List.mem_map_of_mem hinput⟩
  have hrow : (id, RemovalCause.BlockConflict) ∈ block.transactions.flatMap m.dead_by := by
    obtain ⟨input', hinput', heq⟩ := List.mem_map.mp hop
    apply List.mem_flatMap.mpr
    refine ⟨tx, htx, List.mem_append_right _ ?_⟩
    rw [hcb, if_neg Bool.false_ne_true]
    apply List.mem_map_of_mem
    apply List.mem_filterMap.mpr
    exact ⟨input', hinput', by rw [heq, hspend]⟩
  have hgone := @remove_rows_gone _ 0 conf_height _ _ hrow
    { m with block_since_rolling_fee_bump := true,
             deltas := eraseAll m.deltas (block.transactions.map Platform.txid) }
  rw [body_of_lookup he] at hgone
  cases hgone

theorem Referred.on_block_connected (h : Referred ids Others m) (block : Block) (conf_height : ℕ) :
    Referred ids (fun op => Others op ∧ ¬ block.Spends op) (m.on_block_connected block conf_height) := by
  have hadmits : Admits (Referred ids Others) fun _ => False :=
    ⟨fun hs _ h => h.same hs.same_txs, fun txid cause now height h => h.remove_recursive txid cause now height,
      fun _ _ _ _ _ hok => hok.elim⟩
  have hforget : ∀ {m : Mempool} (deltas : Table Txid ℤ), Referred ids Others m →
      Referred ids Others { m with deltas } := fun _ h => h.same ⟨fun _ => rfl, rfl, rfl, rfl, rfl⟩
  apply (hadmits.on_block_connected hforget h block conf_height).change
  exact fun he input hinput ho => Or.inl ⟨ho, connected_unspent h.indexes he hinput⟩

theorem Referred.connect_all (h : Referred ids Others m) (blocks : List (Block × ℕ)) :
    Referred ids (fun op => Others op ∧ ∀ row ∈ blocks, ¬ row.1.Spends op) (m.connect_all blocks) := by
  induction blocks generalizing m Others with
  | nil => exact h.mono fun op ho => ⟨ho, fun _ hrow => absurd hrow List.not_mem_nil⟩
  | cons row blocks ih =>
    apply (ih (h.on_block_connected row.1 row.2)).mono
    rintro op ⟨⟨ho, hfirst⟩, hrest⟩
    exact ⟨ho, List.forall_mem_cons.mpr ⟨hfirst, hrest⟩⟩

def Awaited (cs : Chainstate) (txs : List Transaction) (op : OutPoint) : Prop :=
  cs.utxo.get op ≠ none ∨ ∃ tx ∈ txs, tx.is_coinbase = false ∧ tx.Makes op

variable {cs : Chainstate} {now : ℕ}

theorem Referred.accept_tx (h : Referred ids (fun op => Awaited cs pend op ∨ tx.Makes op) m)
    (hok : ∀ a ∈ m.accept_attempts tx cs now, Refers ids cs a) :
    (∃ id t, m.accept_tx tx cs now = (.ok id, t) ∧ Referred ids (Awaited cs pend) t) ∨
      ∃ e t, m.accept_tx tx cs now = (.error e, t) ∧ Referred ids (fun op => Awaited cs pend op ∨ tx.Makes op) t := by
  have hcoins : ∀ op, cs.utxo.get op ≠ none → Awaited cs pend op := fun _ => Or.inl
  have hboth : Admits (Referred ids fun op => Awaited cs pend op ∨ tx.Makes op) (Refers ids cs) :=
    Referred.admits fun op hop => Or.inl (hcoins op hop)
  have hfirst := hboth.accept_one h fun a ha => hok a (List.mem_append_left _ ha)
  unfold accept_attempts at hok
  unfold Mempool.accept_tx
  cases hrun : m.accept_one tx cs now with
  | mk r t =>
    rw [hrun] at hfirst hok
    cases r with
    | error e => exact Or.inr ⟨e, t, rfl, hfirst⟩
    | ok id =>
      left
      refine ⟨id, _, rfl, ?_⟩
      apply (Referred.admits hcoins).unorphan _ _ fun a ha => hok a (List.mem_append_right _ ha)
      have hhook : PoolPolicy.admit_hook tx = true := by
        by_contra hno
        unfold Mempool.accept_one at hrun
        rw [if_neg hno] at hrun
        cases hrun
      obtain ⟨c, high, trimmed, hexamine, htrim, rfl⟩ := admit_ok hrun
      have hadmission : Refers ids cs ⟨m.sweep now, tx, cs, now⟩ := by
        apply hok _ (List.mem_append_left _ _)
        rw [attempt, if_pos hhook]
        exact List.mem_singleton_self _
      exact (hboth.sweep h now).pool_entry hcoins hadmission.named hadmission.kept hexamine htrim

omit [PoolPolicy] in
theorem awaited_cons (hcb : ¬ tx.is_coinbase) (op : OutPoint) (h : Awaited cs (tx :: pend) op) :
    Awaited cs pend op ∨ tx.Makes op := by
  rcases h with hcoin | ⟨tx', htx', hcb', hmakes⟩
  · exact Or.inl (Or.inl hcoin)
  · rcases List.mem_cons.mp htx' with rfl | htx'
    · exact Or.inr hmakes
    · exact Or.inl (Or.inr ⟨tx', htx', hcb', hmakes⟩)

variable {p : ℕ × Mempool} (txs : List Transaction) (blocks : List Block)

theorem Referred.readd (h : Referred ids (Awaited cs (tx :: pend)) p.2) (hnamed : ids.Names tx)
    (hok : ∀ a ∈ (if tx.is_coinbase then [] else p.2.accept_attempts tx cs now), Refers ids cs a) :
    Referred ids (Awaited cs pend) (Mempool.readd cs now p tx).2 := by
  unfold Mempool.readd
  split
  · next hcb =>
    apply h.mono
    rintro op (hcoin | ⟨tx', htx', hcb', hmakes⟩)
    · exact Or.inl hcoin
    · rcases List.mem_cons.mp htx' with rfl | htx'
      · exact absurd (hcb.symm.trans hcb') (by decide)
      · exact Or.inr ⟨tx', htx', hcb', hmakes⟩
  · next hcb =>
    rw [if_neg hcb] at hok
    rcases (h.mono (awaited_cons hcb)).accept_tx hok with ⟨id, t, hrun, ht⟩ | ⟨e, t, hrun, ht⟩
    · rw [hrun]
      exact ht
    · rw [hrun]
      have hdropped : Referred ids (fun op => Awaited cs pend op ∨ tx.Makes op) (t.drop_orphan (Platform.txid tx)) :=
        ht.same ⟨fun _ => rfl, rfl, rfl, rfl, rfl⟩
      exact hdropped.remove_dependents hnamed now cs.tree.tip_height

theorem Referred.reinsert
    (h : Referred ids (Awaited cs (txs ++
    pend)) p.2) (hnamed : ∀ tx ∈ txs, ids.Names tx) (hok : ∀ a ∈ reinsert_attempts cs now txs p, Refers ids cs a) :
    Referred ids (Awaited cs pend) (txs.foldl (Mempool.readd cs now) p).2 := by
  induction txs generalizing p with
  | nil => exact h
  | cons tx txs ih =>
    rw [reinsert_attempts] at hok
    obtain ⟨hhead, hrest⟩ := List.forall_mem_cons.mp hnamed
    apply ih _ hrest fun a ha => hok a (List.mem_append_right _ ha)
    exact h.readd hhead fun a ha => hok a (List.mem_append_left _ ha)

theorem Referred.refill (h : Referred ids (Awaited cs (blocks.flatMap Block.transactions ++ pend)) p.2)
    (hnamed : ∀ tx ∈ blocks.flatMap Block.transactions, ids.Names tx)
    (hok : ∀ a ∈ refill_attempts cs now blocks p.2, Refers ids cs a) :
    Referred ids (Awaited cs pend) (blocks.foldl
      (fun p block =>
        let q := p.2.reinsert_disconnected block cs now
        (p.1 + q.1, q.2)) p).2 := by
  induction blocks generalizing p with
  | nil => exact h
  | cons block blocks ih =>
    rw [refill_attempts] at hok
    rw [List.flatMap_cons] at h hnamed
    rw [List.append_assoc] at h
    refine ih ?_ (fun tx htx => hnamed tx (List.mem_append_right _ htx)) fun a ha =>
      hok a (List.mem_append_right _ ha)
    exact Referred.reinsert block.transactions (p := (0, p.2)) h
      (fun tx htx => hnamed tx (List.mem_append_left _ htx))
      fun a ha => hok a (List.mem_append_left _ ha)

theorem attempt_chain (h : a ∈ m.attempt tx cs now) : a.cs = cs := by
  unfold attempt at h
  split at h
  · rw [List.mem_singleton.mp h]
  · cases h

theorem orphan_attempts_chain {after : Mempool → Mempool} {log : Mempool → List Attempt} (hlog : ∀ t, ∀ a ∈ log t,
    a.cs = cs) (orphans : List Transaction) (h : a ∈ orphan_attempts cs now after log orphans m) : a.cs = cs := by
  induction orphans generalizing m with
  | nil => cases h
  | cons orphan orphans ih =>
    rw [orphan_attempts] at h
    rcases List.mem_append.mp h with h | h
    · exact attempt_chain h
    split at h
    · rcases List.mem_append.mp h with h | h
      · exact hlog _ a h
      · exact ih h
    · exact ih h

theorem unorphan_attempts_chain (rounds : ℕ) (h : a ∈ unorphan_attempts cs now rounds m) :
    a.cs = cs := by
  induction rounds generalizing m a with
  | zero => cases h
  | succ rounds ih =>
    rw [unorphan_attempts] at h
    split at h
    · cases h
    · rcases List.mem_append.mp h with h | h
      · exact orphan_attempts_chain (fun _ _ ha => ih ha) _ h
      · exact ih h

theorem accept_attempts_chain (h : a ∈ m.accept_attempts tx cs now) : a.cs = cs := by
  unfold accept_attempts at h
  rcases List.mem_append.mp h with h | h
  · exact attempt_chain h
  · split at h
    · exact unorphan_attempts_chain _ h
    · cases h

theorem reinsert_attempts_chain (h : a ∈ reinsert_attempts cs now txs p) : a.cs = cs := by
  induction txs generalizing p with
  | nil => cases h
  | cons tx txs ih =>
    rw [reinsert_attempts] at h
    rcases List.mem_append.mp h with h | h
    · split at h
      · cases h
      · exact accept_attempts_chain h
    · exact ih h

theorem refill_attempts_chain (h : a ∈ refill_attempts cs now blocks m) :
    a.cs = cs := by
  induction blocks generalizing m with
  | nil => cases h
  | cons block blocks ih =>
    rw [refill_attempts] at h
    rcases List.mem_append.mp h with h | h
    · exact reinsert_attempts_chain _ h
    · exact ih h

end

end Mempool

section

variable [PoolPolicy]

def PoolOp.On (cs : Chainstate) : PoolOp → Prop
  | accept_tx _ chain _ | reinsert_disconnected _ chain _ | refill_from_disconnected _ chain _ _ _ => chain = cs
  | remove _ => False
  | _ => True

theorem PoolOp.On.attempts {cs : Chainstate} {op : PoolOp} (h : op.On cs) {m : Mempool} {a : Attempt}
    (ha : a ∈ op.attempts m) : a.cs = cs := by
  cases op with
  | accept_tx => exact h ▸ Mempool.accept_attempts_chain ha
  | reinsert_disconnected => exact h ▸ Mempool.reinsert_attempts_chain _ ha
  | refill_from_disconnected => exact h ▸ Mempool.refill_attempts_chain _ ha
  | expire | remove_recursive | on_block_connected | remove | prioritise | mark_unbroadcast | clear_unbroadcast
  | configure | restore => cases ha

def PoolOp.all_attempts : List PoolOp → Mempool → List Attempt
  | [], _ => []
  | op :: calls, m => op.attempts m ++ all_attempts calls (op.apply m)

def Mempool.apply_all (m : Mempool) (calls : List PoolOp) : Mempool := calls.foldl PoolOp.apply m

/-- What a run is held to: at each admission, and where transactions come back after a change of the chain. -/
structure Terms where
  admits : Attempt → Prop
  returns : Mempool → List Block → Chainstate → List PoolOp → Prop

def Terms.any : Terms := ⟨fun _ => True, fun _ _ _ _ => True⟩

/-- The pool and the chain state that calls and changes of the chain lead to. A change tells the pool of the blocks
that came, and hands back the transactions of those that left. -/
inductive NodeRun (terms : Terms) : Mempool → Chainstate → Prop
  | start {cs : Chainstate} (coins : UtxoSet.Ok cs.utxo) : NodeRun terms Mempool.new cs
  | call {m : Mempool} {cs : Chainstate} (h : NodeRun terms m cs) (op : PoolOp) (on : op.On cs)
      (single : op.readds = false) (admits : ∀ a ∈ op.attempts m, terms.admits a) : NodeRun terms (op.apply m) cs
  | reorg {m : Mempool} {cs t : Chainstate} (h : NodeRun terms m cs) {gone : List Block}
      {connected : List (Block × ℕ)} {calls : List PoolOp}
      (changes : Reorganizes gone (connected.map Prod.fst) cs.utxo t.utxo)
      (on : ∀ op ∈ calls, op.On t ∧ op.readds = true)
      (admits : ∀ a ∈ PoolOp.all_attempts calls (m.connect_all connected), terms.admits a)
      (returns : terms.returns (m.connect_all connected) gone t calls) :
      NodeRun terms ((m.connect_all connected).apply_all calls) t

/-- Each admission keeps the parents it needs, and an output that left the chain is spent only if a transaction that
has it comes back. -/
def Terms.referring (ids : Identifiers) : Terms where
  admits a := ids.Names a.tx ∧ Mempool.KeepsParents a
  returns m gone cs calls := (∀ op ∈ calls, ∀ tx ∈ op.returned, ids.Names tx) ∧
    ∀ id entry, m.map.lookup id = some entry → ∀ input ∈ entry.tx.inputs, cs.utxo.get input.previous_output = none →
      (∃ block ∈ gone, block.Makes input.previous_output) →
      ∃ op ∈ calls, ∃ tx ∈ op.returned, tx.is_coinbase = false ∧ tx.Makes input.previous_output

namespace Mempool

def Resolves (m : Mempool) (cs : Chainstate) : Prop :=
  ∀ id entry, m.map.lookup id = some entry → ∀ input ∈ entry.tx.inputs, cs.utxo.get input.previous_output ≠ none ∨
    ∃ parent, m.map.lookup input.previous_output.txid = some parent ∧ input.previous_output.txid ≠ id ∧
      input.previous_output.vout < parent.tx.outputs.length

def SpendsOnce (m : Mempool) : Prop :=
  ∀ id id' entry entry', m.map.lookup id = some entry → m.map.lookup id' = some entry' →
    ∀ input ∈ entry.tx.inputs, ∀ input' ∈ entry'.tx.inputs, input.previous_output = input'.previous_output → id = id'

variable {ids : Identifiers} {m : Mempool} {cs : Chainstate}

omit [PoolPolicy] in
theorem Indexes.spends_once (h : Indexes m) : SpendsOnce m := by
  intro id id' entry entry' he he' input hinput input' hinput' heq
  have hspend := (h.spends _ _).mpr ⟨entry, he, List.mem_map_of_mem hinput⟩
  have hspend' := (h.spends _ _).mpr ⟨entry', he', List.mem_map_of_mem hinput'⟩
  rw [← heq, hspend] at hspend'
  exact Option.some.inj hspend'

omit [PoolPolicy] in
theorem Referred.resolves (h : Referred ids (fun op => cs.utxo.get op ≠ none) m) : m.Resolves cs := by
  intro id entry he input hinput
  rcases h.resolved he input hinput with hcoin | ⟨parent, hparent, hv⟩
  · exact Or.inl hcoin
  refine Or.inr ⟨parent, hparent, ?_, hv⟩
  intro heq
  have hplace := (h.named he).place input hinput
  rw [h.indexes.keyed he, heq] at hplace
  exact Nat.lt_irrefl _ hplace

theorem Referred.call {op : PoolOp} (h : Referred ids (fun op => cs.utxo.get op ≠ none) m) (on : op.On cs)
    (single : op.readds = false) (hadmits : ∀ a ∈ op.attempts m, (Terms.referring ids).admits a) :
    Referred ids (fun op => cs.utxo.get op ≠ none) (op.apply m) := by
  have hok : ∀ a ∈ op.attempts m, Refers ids cs a :=
    fun a ha => ⟨on.attempts ha, (hadmits a ha).1, (hadmits a ha).2⟩
  apply (Referred.admits fun _ hop => hop).apply h hok
  · intro tx htx
    cases op with
    | reinsert_disconnected | refill_from_disconnected => cases single
    | accept_tx | expire | remove_recursive | on_block_connected | remove | prioritise | mark_unbroadcast
    | clear_unbroadcast | configure | restore => cases htx
  · rintro block conf_height rfl
    exact (h.on_block_connected block conf_height).mono fun _ hop => hop.1
  · intro hop
    rcases edits_same m hop with ⟨txid, rfl⟩ | hs
    · cases on
    · exact h.same hs

theorem Referred.apply_all (calls : List PoolOp) (h : Referred ids (Awaited cs (calls.flatMap PoolOp.returned)) m)
    (on : ∀ op ∈ calls, op.On cs ∧ op.readds = true) (hnamed : ∀ op ∈ calls, ∀ tx ∈ op.returned, ids.Names tx)
    (hadmits : ∀ a ∈ PoolOp.all_attempts calls m, (Terms.referring ids).admits a) :
    Referred ids (Awaited cs []) (m.apply_all calls) := by
  induction calls generalizing m with
  | nil => exact h
  | cons op calls ih =>
    obtain ⟨hop, hon⟩ := List.forall_mem_cons.mp on
    obtain ⟨hname, hrest⟩ := List.forall_mem_cons.mp hnamed
    rw [List.flatMap_cons] at h
    refine ih ?_ hon hrest fun a ha => hadmits a (List.mem_append_right _ ha)
    have hok : ∀ a ∈ op.attempts m, Refers ids cs a := by
      intro a ha
      obtain ⟨hnames, hkept⟩ := hadmits a (List.mem_append_left _ ha)
      exact ⟨hop.1.attempts ha, hnames, hkept⟩
    cases op with
    | reinsert_disconnected block chain now =>
      cases hop.1
      have hreturned : (PoolOp.reinsert_disconnected block cs now).returned = block.transactions := by
        rw [PoolOp.returned, PoolOp.queued, List.flatMap_singleton]
      rw [hreturned] at h hname
      exact Referred.reinsert block.transactions (p := (0, m)) h hname hok
    | refill_from_disconnected disconnected chain now fork_first max_blocks =>
      cases hop.1
      exact Referred.refill _ (p := (0, m)) h hname hok
    | accept_tx | expire | remove_recursive | on_block_connected | remove | prioritise | mark_unbroadcast
    | clear_unbroadcast | configure | restore => cases hop.2

theorem Referred.run (h : NodeRun (.referring ids) m cs) :
    UtxoSet.Ok cs.utxo ∧ Referred ids (fun op => cs.utxo.get op ≠ none) m := by
  induction h with
  | start coins => exact ⟨coins, .new⟩
  | call _ op on single admits ih => exact ⟨ih.1, ih.2.call on single admits⟩
  | @reorg m cs t _ gone connected calls changes on admits returns ih =>
    obtain ⟨hok, h⟩ := ih
    obtain ⟨hnamed, hreturns⟩ := returns
    refine ⟨changes.ok hok, ?_⟩
    have hawaited : Referred ids (Awaited t (calls.flatMap PoolOp.returned)) (m.connect_all connected) := by
      apply (h.connect_all connected).change
      rintro id entry he input hinput ⟨hcoin, hunspent⟩
      left
      by_cases hnone : t.utxo.get input.previous_output = none
      · rcases changes.lost hok hcoin hnone with hmade | ⟨block, hblock, hspends⟩
        · obtain ⟨op, hop, tx, htx, hcb, hmakes⟩ := hreturns id entry he input hinput hnone hmade
          exact Or.inr ⟨tx, List.mem_flatMap.mpr ⟨op, hop, htx⟩, hcb, hmakes⟩
        · obtain ⟨row, hrow, rfl⟩ := List.mem_map.mp hblock
          exact absurd hspends (hunspent row hrow)
      · exact Or.inl hnone
    apply (hawaited.apply_all calls on hnamed admits).mono
    rintro op (hcoin | ⟨tx, htx, -⟩)
    · exact hcoin
    · cases htx

theorem Referred.accept_one (h : Referred ids (fun op => cs.utxo.get op ≠ none) m) {tx : Transaction} {now : ℕ}
    (hnamed : ids.Names tx) {id : Txid} (haccepted : (m.accept_one tx cs now).1 = .ok id) :
    (m.accept_one tx cs now).2.Resolves cs ↔ KeepsParents ⟨m.sweep now, tx, cs, now⟩ := by
  cases hrun : m.accept_one tx cs now with
  | mk r t =>
    rw [hrun] at haccepted
    cases haccepted
    obtain ⟨c, high, trimmed, hexamine, htrim, rfl⟩ := admit_ok hrun
    constructor
    · intro hresolves c' high' trimmed' hexamine' htrim' input hinput hcoin
      cases hexamine.symm.trans hexamine'
      cases htrim.symm.trans htrim'
      have hbody := fun id => (SumsOnly.pool_entry (trimmed.entered tx c now high) tx cs c now).body id
      have hentry := hbody (Platform.txid tx)
      rw [index_body, if_pos rfl] at hentry
      obtain ⟨entry, he, heq⟩ := Option.map_eq_some_iff.mp hentry
      have htx : entry.tx = tx := MempoolEntry.tx_of_body heq
      obtain ⟨parent, hparent, hne, -⟩ :=
        (hresolves _ entry he input (htx ▸ hinput)).resolve_left (not_not_intro hcoin)
      have hpooled := hbody input.previous_output.txid
      rw [index_body, if_neg hne, body_of_lookup hparent] at hpooled
      rw [contains_eq]
      have hshrinks : Shrinks trimmed (trimmed.entered tx c now high) :=
        (Shrinks.raise_rolling_fee trimmed high now).trans (.remove_each _ _ _ _ _)
      rcases hshrinks.body input.previous_output.txid with hgone | hsame
      · rw [hgone] at hpooled
        cases hpooled
      · rw [← hsame, ← hpooled]
        rfl
    · intro hkept
      have hswept : Referred ids (fun op => cs.utxo.get op ≠ none) (m.sweep now) :=
        (Referred.admits fun _ hop => hop).sweep h now
      apply Referred.resolves
      exact (hswept.mono fun _ => Or.inl).pool_entry (fun _ hop => hop) hnamed hkept hexamine htrim

theorem KeepsParents.of_room {a : Attempt} (hroom : a.pool.crowded a.tx.encode.length = false) : KeepsParents a := by
  intro c high t hexamine htrim input hinput hcoin
  rw [trim, hroom] at htrim
  cases htrim
  obtain ⟨parent, hparent, -⟩ := resolve_pooled (resolve_inputs_some (examine_ok hexamine).spent input hinput) hcoin
  rw [contains, hparent]
  rfl

theorem references_resolve (ids : Identifiers) :
    (∀ m cs, NodeRun (.referring ids) m cs → m.Resolves cs ∧ m.SpendsOnce) ∧
    ∀ m cs tx now id, NodeRun (.referring ids) m cs → ids.Names tx → (m.accept_one tx cs now).1 = .ok id →
      ((m.accept_one tx cs now).2.Resolves cs ↔ KeepsParents ⟨m.sweep now, tx, cs, now⟩) := by
  constructor
  · intro m cs h
    exact ⟨(Referred.run h).2.resolves, (Referred.run h).2.indexes.spends_once⟩
  · intro m cs tx now id h hnamed haccepted
    exact (Referred.run h).2.accept_one hnamed haccepted

end Mempool

end

end

namespace Mempool

section

attribute [local instance] Platform.sample PoolPolicy.sample

def sample_cheap : Transaction := sample_tx 1 [(1000, 0)] [990000]

def sample_spender : Transaction := sample_tx 2 [(1, 0)] [300000]

def sample_names : Identifiers where
  outputs _ := 1
  place txid := if txid = 1000 then 0 else txid.toNat

theorem sample_chain_ok : UtxoSet.Ok (sample_chain 1).utxo := UtxoSet.new_ok.put _ _

def sample_first : Mempool := (new.accept_tx sample_cheap (sample_chain 1) 0).2

theorem references_resolve_pair :
    ((sample_first.accept_tx sample_spender (sample_chain 1) 0).2.Resolves (sample_chain 1) ∧
      (sample_first.accept_tx sample_spender (sample_chain 1) 0).2.SpendsOnce) ∧
    ((sample_first.accept_one sample_spender (sample_chain 1) 0).2.Resolves (sample_chain 1) ↔
      KeepsParents ⟨sample_first.sweep 0, sample_spender, sample_chain 1, 0⟩) := by
  have hcall : ∀ (m : Mempool) (tx : Transaction), (m.accept_attempts tx (sample_chain 1) 0).length = 1 →
      sample_names.Names tx → (m.sweep 0).crowded tx.encode.length = false →
      NodeRun (.referring sample_names) m (sample_chain 1) →
      NodeRun (.referring sample_names) (m.accept_tx tx (sample_chain 1) 0).2 (sample_chain 1) := by
    intro m tx hlen hnamed hroom h
    apply h.call (.accept_tx tx (sample_chain 1) 0) rfl rfl
    intro a ha
    obtain ⟨b, hb⟩ := List.length_eq_one_iff.mp hlen
    have hfirst : b = ⟨m.sweep 0, tx, sample_chain 1, 0⟩ := (List.cons.inj hb).1.symm
    change a ∈ m.accept_attempts tx (sample_chain 1) 0 at ha
    rw [hb, List.mem_singleton, hfirst] at ha
    rw [ha]
    exact ⟨hnamed, .of_room hroom⟩
  have hfirst := hcall new sample_cheap (by decide +kernel) ⟨rfl, by decide⟩ (by decide +kernel)
    (.start sample_chain_ok)
  have hnamed : sample_names.Names sample_spender := ⟨rfl, by decide⟩
  have hsecond := hcall sample_first sample_spender (by decide +kernel) hnamed (by decide +kernel) hfirst
  obtain ⟨hruns, hexact⟩ := references_resolve sample_names
  exact ⟨hruns _ _ hsecond, hexact sample_first (sample_chain 1) sample_spender 0 2 hfirst hnamed (by decide +kernel)⟩

def sample_tight : Mempool :=
  (({ new with settings := { PoolSettings.default with max_entries := 1 } }.accept_tx sample_cheap (sample_chain 1)
    0).2.accept_tx sample_spender (sample_chain 1) 0).2

theorem evicted_parent : ¬ ∀ m cs, NodeRun .any m cs → m.Resolves cs ∧ m.SpendsOnce := by
  intro h
  have hrun : NodeRun .any sample_tight (sample_chain 1) := by
    apply NodeRun.call _ (.accept_tx sample_spender (sample_chain 1) 0) rfl rfl fun _ _ => trivial
    apply NodeRun.call _ (.accept_tx sample_cheap (sample_chain 1) 0) rfl rfl fun _ _ => trivial
    apply NodeRun.call _ (.configure { PoolSettings.default with max_entries := 1 }) trivial rfl fun _ _ => trivial
    exact .start sample_chain_ok
  have hinputs : (sample_tight.map.lookup 2).map (fun entry => entry.tx.inputs.map TxIn.previous_output) =
      some [⟨1, 0⟩] := by decide +kernel
  have hcoin : (sample_chain 1).utxo.get ⟨1, 0⟩ = none := by decide +kernel
  have hgone : sample_tight.map.lookup 1 = none := by decide +kernel
  obtain ⟨entry, he, heq⟩ := Option.map_eq_some_iff.mp hinputs
  have hmem : (⟨1, 0⟩ : OutPoint) ∈ entry.tx.inputs.map TxIn.previous_output := by
    rw [heq]
    exact List.mem_singleton_self _
  obtain ⟨input, hinput, hop⟩ := List.mem_map.mp hmem
  rcases (h _ _ hrun).1 2 entry he input hinput with hsome | ⟨parent, hparent, -⟩
  · rw [hop] at hsome
    exact hsome hcoin
  · rw [hop] at hparent
    cases hgone.symm.trans hparent

end

end Mempool

end AvilaNode
