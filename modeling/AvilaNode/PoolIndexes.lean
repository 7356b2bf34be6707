import AvilaNode.PoolEntries

/-! The indexes beside the entries, over every run of calls. -/

namespace AvilaNode

open Layers

namespace Mempool

theorem except_bind_ok {ε α β : Type} {x : Except ε α} {f : α → Except ε β} {b : β} (h : (x >>= f) = .ok b) :
    ∃ a, x = .ok a ∧ f a = .ok b := by
  cases x with
  | error e => cases h
  | ok a => exact ⟨a, rfl, h⟩

variable {id : Txid}

section

variable [Platform]

omit [Platform] in
theorem mem_note_conflict {m : Mempool} {conflicts : List Txid} {input : TxIn} :
    id ∈ m.note_conflict conflicts input ↔ id ∈ conflicts ∨ m.spends.lookup input.previous_output = some id := by
  unfold note_conflict
  cases m.spends.lookup input.previous_output with
  | none => simp
  | some conflict =>
    dsimp only
    rw [Option.some.injEq]
    split
    · next hc =>
      constructor
      · exact Or.inl
      · rintro (h | rfl)
        · exact h
        · exact hc
    · rw [List.mem_append, List.mem_singleton, eq_comm (a := id)]

omit [Platform] in
theorem mem_direct_conflicts {m : Mempool} {tx : Transaction} :
    id ∈ m.direct_conflicts tx ↔ ∃ input ∈ tx.inputs, m.spends.lookup input.previous_output = some id := by
  have hfold : ∀ (inputs : List TxIn) (found : List Txid), id ∈ inputs.foldl m.note_conflict found ↔
      id ∈ found ∨ ∃ input ∈ inputs, m.spends.lookup input.previous_output = some id := by
    intro inputs
    induction inputs with
    | nil => simp
    | cons input inputs ih =>
      intro found
      rw [List.foldl_cons, ih, mem_note_conflict, List.exists_mem_cons_iff, or_assoc]
  rw [direct_conflicts, hfold]
  simp

omit [Platform] in
theorem truc_conflicts_ok {m : Mempool} {tx : Transaction} {vsize : ℕ} {conflicts conflicts' : List Txid}
    (h : m.truc_conflicts tx vsize conflicts = .ok conflicts') : conflicts ⊆ conflicts' := by
  unfold truc_conflicts at h
  split at h
  · cases h
    exact List.Subset.refl _
  · cases h
  · cases h
    split
    · exact List.Subset.refl _
    · exact List.subset_append_left _ _

variable [PoolPolicy]

structure Examined (m : Mempool) (tx : Transaction) (cs : Chainstate) (now : ℕ) (c : Candidate) : Prop where
  alone : m.check_alone tx = .ok ()
  spent : m.resolve_inputs cs tx.inputs = some c.spent
  ancestors : c.ancestors = m.ancestors_of tx
  vsize : c.vsize = virtual_size tx.weight c.sigops
  conflicts : m.truc_conflicts tx c.vsize (m.direct_conflicts tx) = .ok c.conflicts
  replacement : m.check_replacement c.ancestors c.conflicts = .ok ()
  package : m.check_package c.ancestors c.vsize = .ok ()
  fee : check_fee tx c.spent c.next_height = .ok c.fee
  modified_fee : c.modified_fee = saturating_add c.fee ((m.deltas.lookup (Platform.txid tx)).getD 0)
  bump : m.check_bump c.conflicts c.fee c.vsize = .ok ()
  next_height : c.next_height = cs.tree.tip_height + 1

theorem examine_ok {m : Mempool} {tx : Transaction} {cs : Chainstate} {now : ℕ} {c : Candidate}
    (h : m.examine tx cs now = .ok c) : Examined m tx cs now c := by
  obtain ⟨⟨⟩, halone, h⟩ := except_bind_ok h
  split at h
  · cases h
  · next spent hspent =>
    obtain ⟨-, -, h⟩ := except_bind_ok h
    obtain ⟨-, -, h⟩ := except_bind_ok h
    obtain ⟨-, -, h⟩ := except_bind_ok h
    obtain ⟨conflicts, hconflicts, h⟩ := except_bind_ok h
    obtain ⟨⟨⟩, hreplacement, h⟩ := except_bind_ok h
    obtain ⟨⟨⟩, hpackage, h⟩ := except_bind_ok h
    obtain ⟨fee, hfee, h⟩ := except_bind_ok h
    obtain ⟨-, -, h⟩ := except_bind_ok h
    obtain ⟨⟨⟩, hbump, h⟩ := except_bind_ok h
    obtain ⟨-, -, h⟩ := except_bind_ok h
    obtain ⟨-, -, h⟩ := except_bind_ok h
    obtain ⟨-, -, h⟩ := except_bind_ok h
    obtain ⟨-, -, h⟩ := except_bind_ok h
    cases h
    exact ⟨halone, hspent, rfl, rfl, hconflicts, hreplacement, hpackage, hfee, rfl, hbump, rfl⟩

theorem check_alone_ok {m : Mempool} {tx : Transaction} (h : m.check_alone tx = .ok ()) :
    check_transaction tx = .ok () ∧ tx.is_coinbase = false ∧ m.contains (Platform.txid tx) = false := by
  unfold check_alone at h
  split at h
  · cases h
  · next hc =>
    refine ⟨hc, ?_, ?_⟩
    · cases hcb : tx.is_coinbase with
      | false => rfl
      | true =>
        rw [if_pos hcb] at h
        cases h
    · cases hk : m.contains (Platform.txid tx) with
      | false => rfl
      | true =>
        rw [if_pos hk] at h
        split at h <;> cases h

variable {m : Mempool} {tx : Transaction} {cs : Chainstate} {now : ℕ} {c : Candidate}

theorem Examined.fresh (h : Examined m tx cs now c) : m.body (Platform.txid tx) = none := by
  have hk := (check_alone_ok h.alone).2.2
  rwa [contains_eq, Option.isSome_eq_false_iff, Option.isNone_iff_eq_none] at hk

theorem entered_fresh {removed_high : Option (ℤ × ℕ)} {trimmed : Mempool} (hc : m.examine tx cs now = .ok c)
    (htrim : m.trim c tx.encode.length now (m.len + 1) none = (some removed_high, trimmed)) :
    (trimmed.entered tx c now removed_high).map.lookup (Platform.txid tx) = none := by
  rw [← body_eq_none]
  exact ((Shrinks.entered htrim).body _).elim id fun hb => hb.trans (examine_ok hc).fresh

theorem Examined.conflicts_of_spent (h : Examined m tx cs now c) {op : OutPoint}
    (hop : op ∈ tx.inputs.map TxIn.previous_output) (hid : m.spends.lookup op = some id) : id ∈ c.conflicts := by
  obtain ⟨input, hinput, rfl⟩ := List.mem_map.mp hop
  exact truc_conflicts_ok h.conflicts (mem_direct_conflicts.mpr ⟨input, hinput, hid⟩)

end

section

variable [Platform]

structure Indexes (m : Mempool) : Prop where
  keyed : ∀ {id : Txid} {entry : MempoolEntry}, m.map.lookup id = some entry → Platform.txid entry.tx = id
  spends : Inverted (fun entry => entry.tx.inputs.map TxIn.previous_output) m.map m.spends
  sizes : ∀ {id : Txid} {entry : MempoolEntry}, m.map.lookup id = some entry → entry.size = entry.tx.encode.length
  pool_bytes : m.pool_bytes = total MempoolEntry.size m.map

def WtxidIndex (m : Mempool) : Prop := Inverted (fun entry => [Platform.wtxid entry.tx]) m.map m.wtxids

def tx_at (m : Mempool) (id : Txid) : Option (Transaction × ℕ × ℕ) :=
  (m.map.lookup id).map fun e => (e.tx, e.size, e.vsize)

structure SameTxs (m t : Mempool) : Prop where
  tx_at : ∀ id, t.tx_at id = m.tx_at id
  total : total MempoolEntry.size t.map = total MempoolEntry.size m.map
  spends : t.spends = m.spends
  wtxids : t.wtxids = m.wtxids
  pool_bytes : t.pool_bytes = m.pool_bytes

variable {t : Mempool} {entry : MempoolEntry} {txid : Txid}

omit [Platform] in
theorem SameTxs.lookup {m : Mempool} (h : SameTxs m t) (he : t.map.lookup id = some entry) :
    ∃ entry', m.map.lookup id = some entry' ∧ entry'.tx = entry.tx ∧ entry'.size = entry.size ∧
      entry'.vsize = entry.vsize := by
  have ht := h.tx_at id
  rw [Mempool.tx_at, he, Option.map_some, Mempool.tx_at] at ht
  obtain ⟨entry', he', heq⟩ := Option.map_eq_some_iff.mp ht.symm
  simp only [Prod.mk.injEq] at heq
  exact ⟨entry', he', heq⟩

omit [Platform] in
theorem SameTxs.inverted {J : Type} [DecidableEq J] (keys : Transaction → List J) {index : Table J Txid}
    {m : Mempool} (h : SameTxs m t) (hi : Inverted (fun entry => keys entry.tx) m.map index) :
    Inverted (fun entry => keys entry.tx) t.map index := by
  apply hi.congr
  intro id
  have ht := congrArg (Option.map fun row : Transaction × ℕ × ℕ => keys row.1) (h.tx_at id)
  rw [Mempool.tx_at, Mempool.tx_at, Option.map_map, Option.map_map] at ht
  exact ht

theorem Indexes.same {m : Mempool} (h : Indexes m) (hs : SameTxs m t) : Indexes t where
  keyed {id entry} he := by
    obtain ⟨entry', he', htx, -⟩ := hs.lookup he
    rw [← htx]
    exact h.keyed he'
  spends := by
    rw [hs.spends]
    exact hs.inverted (fun tx => tx.inputs.map TxIn.previous_output) h.spends
  sizes {id entry} he := by
    obtain ⟨entry', he', htx, hsize, -⟩ := hs.lookup he
    rw [← htx, ← hsize]
    exact h.sizes he'
  pool_bytes := by
    rw [hs.pool_bytes, hs.total]
    exact h.pool_bytes

theorem WtxidIndex.same {m : Mempool} (h : WtxidIndex m) (hs : SameTxs m t) : WtxidIndex t := by
  unfold WtxidIndex
  rw [hs.wtxids]
  exact hs.inverted (fun tx => [Platform.wtxid tx]) h

omit [Platform] in
theorem SumsOnly.same_txs {m : Mempool} (h : SumsOnly m t) : SameTxs m t where
  tx_at id := by
    have htx : ∀ u : Mempool, u.tx_at id = (u.body id).map fun e => (e.tx, e.size, e.vsize) := by
      intro u
      rw [Mempool.body, Option.map_map]
      rfl
    rw [htx, htx, h.body]
  total := h.total _ fun e e' he => (congrArg MempoolEntry.size he : e.body.size = e'.body.size)
  spends := h.spends
  wtxids := h.wtxids
  pool_bytes := h.pool_bytes

omit [Platform] in
theorem SameEntries.same_txs {m : Mempool} (h : SameEntries m t) : SameTxs m t where
  tx_at id := by rw [Mempool.tx_at, h.map, Mempool.tx_at]
  total := by rw [h.map]
  spends := h.spends
  wtxids := h.wtxids
  pool_bytes := h.pool_bytes

omit [Platform] in
theorem SameTxs.trans {m u : Mempool} (h : SameTxs m t) (h' : SameTxs t u) : SameTxs m u where
  tx_at id := (h'.tx_at id).trans (h.tx_at id)
  total := h'.total.trans h.total
  spends := h'.spends.trans h.spends
  wtxids := h'.wtxids.trans h.wtxids
  pool_bytes := h'.pool_bytes.trans h.pool_bytes

omit [Platform] in
theorem SameTxs.write {m : Mempool} {entry' : MempoolEntry} (h : m.map.lookup txid = some entry)
    (hmap : t.map = m.map.insert txid entry') (htx : entry'.tx = entry.tx) (hsize : entry'.size = entry.size)
    (hvsize : entry'.vsize = entry.vsize) (hs : t.spends = m.spends) (hw : t.wtxids = m.wtxids)
    (hp : t.pool_bytes = m.pool_bytes) : SameTxs m t where
  tx_at id := by
    unfold Mempool.tx_at
    rw [hmap, lookup_insert_eq]
    split
    · next hid => rw [hid, h, Option.map_some, Option.map_some, htx, hsize, hvsize]
    · rfl
  total := by
    rw [hmap]
    exact total_insert_same h hsize
  spends := hs
  wtxids := hw
  pool_bytes := hp

theorem Indexes.unindex {m : Mempool} (h : Indexes m) (he : m.map.lookup txid = some entry) :
    Indexes (m.unindex txid entry) where
  keyed {id entry'} hid := by
    change (m.map.erase txid).lookup id = _ at hid
    rw [lookup_erase_eq] at hid
    split at hid
    · cases hid
    · exact h.keyed hid
  spends := h.spends.erase he
  sizes {id entry'} hid := by
    change (m.map.erase txid).lookup id = _ at hid
    rw [lookup_erase_eq] at hid
    split at hid
    · cases hid
    · exact h.sizes hid
  pool_bytes := by
    change m.pool_bytes - entry.size = total MempoolEntry.size (m.map.erase txid)
    rw [h.pool_bytes, total_erase he]
    omega

theorem remove_inner_same {m : Mempool} (he : m.map.lookup txid = some entry) (cause : RemovalCause)
    (now height : ℕ) : SameTxs (m.unindex txid entry) (m.remove_inner txid cause now height) := by
  have hs : SameTxs (m.unindex txid entry) ((m.unindex txid entry).record_removal txid entry cause now height) :=
    ⟨fun _ => rfl, rfl, rfl, rfl, rfl⟩
  exact hs.trans (remove_inner_sums he cause now height).same_txs

theorem Indexes.remove_inner {m : Mempool} (h : Indexes m) (txid : Txid) (cause : RemovalCause) (now height : ℕ) :
    Indexes (m.remove_inner txid cause now height) := by
  cases he : m.map.lookup txid with
  | none =>
    rw [remove_inner_none he]
    exact h
  | some entry => exact (h.unindex he).same (remove_inner_same he cause now height)

theorem WtxidIndex.remove_inner {m : Mempool} (h : WtxidIndex m) (txid : Txid) (cause : RemovalCause)
    (now height : ℕ) : WtxidIndex (m.remove_inner txid cause now height) := by
  cases he : m.map.lookup txid with
  | none =>
    rw [remove_inner_none he]
    exact h
  | some entry =>
    exact WtxidIndex.same (m := m.unindex txid entry) (h.erase he) (remove_inner_same he cause now height)

theorem Indexes.index {m : Mempool} (h : Indexes m) (htxid : Platform.txid entry.tx = txid)
    (hfresh : m.map.lookup txid = none)
    (hspends : ∀ op ∈ entry.tx.inputs.map TxIn.previous_output, m.spends.lookup op = none)
    (hsize : entry.size = entry.tx.encode.length) : Indexes (m.index txid entry) where
  keyed {id entry'} hid := by
    change (m.map.insert _ entry).lookup id = _ at hid
    rw [lookup_insert_eq] at hid
    split at hid
    · next heq =>
      cases hid
      rw [htxid, heq]
    · exact h.keyed hid
  spends := by
    have hinsert := h.spends.insert hfresh entry hspends
    rw [List.map_map] at hinsert
    exact hinsert
  sizes {id entry'} hid := by
    change (m.map.insert _ entry).lookup id = _ at hid
    rw [lookup_insert_eq] at hid
    split at hid
    · cases hid
      exact hsize
    · exact h.sizes hid
  pool_bytes := by
    change m.pool_bytes + entry.size = total MempoolEntry.size (m.map.insert _ entry)
    rw [total_insert_fresh hfresh, h.pool_bytes, Nat.add_comm]

theorem Indexes.new : Indexes Mempool.new where
  keyed h := by cases h
  spends op id := by simp [Mempool.new]
  sizes h := by cases h
  pool_bytes := rfl

theorem edits_same [PoolPolicy] (m : Mempool) {op : PoolOp} (hop : op.edits) :
    (∃ txid, op = .remove txid) ∨ SameTxs m (op.apply m) := by
  cases op with
  | accept_tx | expire | remove_recursive | on_block_connected | reinsert_disconnected | refill_from_disconnected =>
    cases hop
  | remove txid => exact Or.inl ⟨txid, rfl⟩
  | mark_unbroadcast | clear_unbroadcast | configure => exact Or.inr ⟨fun _ => rfl, rfl, rfl, rfl, rfl⟩
  | restore txid time first_seen_height =>
    right
    change SameTxs m (m.restore txid time first_seen_height)
    unfold restore
    split
    · exact ⟨fun _ => rfl, rfl, rfl, rfl, rfl⟩
    · next he => exact .write he rfl rfl rfl rfl rfl rfl rfl
  | prioritise txid delta =>
    right
    change SameTxs m (m.prioritise txid delta)
    unfold prioritise
    dsimp only
    split
    · exact ⟨fun _ => rfl, rfl, rfl, rfl, rfl⟩
    · next he =>
      apply SameTxs.trans _ ((SumsOnly.resync _ _ _).trans (.adjust_all _ _ _ _)).same_txs
      exact .write he rfl rfl rfl rfl rfl rfl rfl

variable [PoolPolicy]

section

variable {m : Mempool} {tx : Transaction} {cs : Chainstate} {c : Candidate} {now : ℕ}
  {removed_high : Option (ℤ × ℕ)} {trimmed : Mempool}

theorem entered_spends (hc : m.examine tx cs now = .ok c)
    (htrim : m.trim c tx.encode.length now (m.len + 1) none = (some removed_high, trimmed))
    (h : Indexes (trimmed.entered tx c now removed_high)) :
    ∀ op ∈ tx.inputs.map TxIn.previous_output, (trimmed.entered tx c now removed_high).spends.lookup op = none := by
  intro op hop
  apply Option.eq_none_iff_forall_ne_some.mpr
  intro id hid
  have hold : m.spends.lookup op = some id := by
    rcases (Shrinks.entered htrim).spends op with hs | hs
    · rw [hs] at hid
      cases hid
    · exact hs ▸ hid
  obtain ⟨entry, hentry, -⟩ := (h.spends op id).mp hid
  have hgone : (trimmed.entered tx c now removed_high).body id = none :=
    remove_each_gone ((examine_ok hc).conflicts_of_spent hop hold)
  rw [body_eq_none, hentry] at hgone
  cases hgone

theorem Indexes.pool_entry (hc : m.examine tx cs now = .ok c)
    (htrim : m.trim c tx.encode.length now (m.len + 1) none = (some removed_high, trimmed))
    (h : Indexes (trimmed.entered tx c now removed_high)) :
    Indexes ((trimmed.entered tx c now removed_high).pool_entry tx cs c now) := by
  have htx : Platform.txid ((trimmed.entered tx c now removed_high).entry_of tx cs c now).tx = Platform.txid tx := rfl
  apply Indexes.same _ (SumsOnly.pool_entry _ tx cs c now).same_txs
  exact h.index htx (entered_fresh hc htrim) (entered_spends hc htrim h) rfl

theorem WtxidIndex.pool_entry
    (hwtxid : ∀ tx tx', Platform.wtxid tx = Platform.wtxid tx' → Platform.txid tx = Platform.txid tx')
    (hc : m.examine tx cs now = .ok c)
    (htrim : m.trim c tx.encode.length now (m.len + 1) none = (some removed_high, trimmed))
    (hi : Indexes (trimmed.entered tx c now removed_high)) (h : WtxidIndex (trimmed.entered tx c now removed_high)) :
    WtxidIndex ((trimmed.entered tx c now removed_high).pool_entry tx cs c now) := by
  have hfresh := entered_fresh hc htrim
  apply WtxidIndex.same _ (SumsOnly.pool_entry _ tx cs c now).same_txs
  apply Inverted.insert h hfresh
  intro wtxid hmem
  rw [List.mem_singleton.mp hmem]
  apply Option.eq_none_iff_forall_ne_some.mpr
  intro id hid
  obtain ⟨entry, hentry, hw⟩ := (h _ id).mp hid
  have hkey := hi.keyed hentry
  rw [← hwtxid _ _ (List.mem_singleton.mp hw)] at hkey
  change Platform.txid tx = id at hkey
  rw [← hkey, hfresh] at hentry
  cases hentry

end

theorem Indexes.keeps : Keeps Indexes fun _ => True := by
  apply Keeps.of_remove_inner
  · exact fun hs h => h.same hs.same_txs
  · exact fun txid cause now height h => h.remove_inner txid cause now height
  · exact fun _ _ hc htrim h => .pool_entry hc htrim h

theorem Indexes.run {m : Mempool} (h : Reachable m) : Indexes m := by
  induction h with
  | new => exact .new
  | @step m _ op _ ih =>
    apply Indexes.keeps.apply ih fun _ _ => trivial
    intro hop
    rcases edits_same m hop with ⟨txid, rfl⟩ | hs
    · exact ih.remove_inner txid .Explicit 0 0
    · exact ih.same hs

theorem WtxidIndex.run
    (hwtxid : ∀ tx tx', Platform.wtxid tx = Platform.wtxid tx' → Platform.txid tx = Platform.txid tx')
    {m : Mempool} (h : Reachable m) : WtxidIndex m := by
  have hkeeps : Keeps (fun m => Indexes m ∧ WtxidIndex m) fun _ => True := by
    apply Keeps.of_remove_inner
    · exact fun hs h => ⟨h.1.same hs.same_txs, h.2.same hs.same_txs⟩
    · exact fun txid cause now height h =>
        ⟨h.1.remove_inner txid cause now height, h.2.remove_inner txid cause now height⟩
    · exact fun _ _ hc htrim h => ⟨.pool_entry hc htrim h.1, .pool_entry hwtxid hc htrim h.1 h.2⟩
  suffices hboth : Indexes m ∧ WtxidIndex m from hboth.2
  induction h with
  | new => exact ⟨.new, fun wtxid id => by simp [Mempool.new]⟩
  | @step m _ op _ ih =>
    apply hkeeps.apply ih fun _ _ => trivial
    intro hop
    rcases edits_same m hop with ⟨txid, rfl⟩ | hs
    · exact ⟨ih.1.remove_inner txid .Explicit 0 0, ih.2.remove_inner txid .Explicit 0 0⟩
    · exact ⟨ih.1.same hs, ih.2.same hs⟩

structure Roomy (m : Mempool) : Prop where
  len : m.len ≤ m.settings.max_entries
  pool_bytes : m.pool_bytes ≤ m.settings.max_bytes

omit [Platform] [PoolPolicy] in
theorem Roomy.shrinks {m t : Mempool} (h : Roomy m) (hs : Shrinks m t) : Roomy t where
  len := by
    rw [hs.settings]
    exact hs.len.trans h.len
  pool_bytes := by
    rw [hs.settings]
    exact hs.pool_bytes.trans h.pool_bytes

theorem roomy_pool_entry {m : Mempool} {tx : Transaction} {cs : Chainstate} {c : Candidate} {now : ℕ}
    {removed_high : Option (ℤ × ℕ)} {trimmed : Mempool} (hc : m.examine tx cs now = .ok c)
    (htrim : m.trim c tx.encode.length now (m.len + 1) none = (some removed_high, trimmed)) :
    Roomy ((trimmed.entered tx c now removed_high).pool_entry tx cs c now) := by
  set next := trimmed.entered tx c now removed_high
  have hroom := trim_some htrim
  have hs := SumsOnly.pool_entry next tx cs c now
  have hentered := (Shrinks.raise_rolling_fee trimmed removed_high now).trans (.remove_each _ c.conflicts
    (.Replaced (Platform.txid tx)) now c.next_height)
  simp only [crowded, Bool.or_eq_false_iff, decide_eq_false_iff_not, not_le, not_lt] at hroom
  constructor
  · have hlen : (next.pool_entry tx cs c now).len = next.len + 1 := by
      rw [hs.len, len_eq_total, len_eq_total]
      exact (total_insert_fresh (entered_fresh hc htrim) _).trans (Nat.add_comm _ _)
    rw [hlen, hs.rest]
    change _ ≤ next.settings.max_entries
    rw [show next.settings = trimmed.settings from hentered.settings]
    exact Nat.lt_of_le_of_lt hentered.len hroom.1
  · rw [hs.pool_bytes, hs.rest]
    change next.pool_bytes + tx.encode.length ≤ next.settings.max_bytes
    rw [show next.settings = trimmed.settings from hentered.settings]
    exact (Nat.add_le_add_right hentered.pool_bytes _).trans hroom.2

theorem Roomy.keeps : Keeps Roomy fun _ => True := by
  apply Keeps.of_remove_inner
  · intro m t hs h
    constructor
    · rw [hs.settings, Mempool.len, hs.map]
      exact h.len
    · rw [hs.settings, hs.pool_bytes]
      exact h.pool_bytes
  · exact fun txid cause now height h => h.shrinks (.remove_inner _ txid cause now height)
  · exact fun _ _ hc htrim _ => roomy_pool_entry hc htrim

theorem roomy_of_accept {m : Mempool} {tx : Transaction} {cs : Chainstate} {now : ℕ}
    (h : (m.accept_tx tx cs now).1 = .ok id) : Roomy (m.accept_tx tx cs now).2 := by
  unfold accept_tx at h ⊢
  split at h
  · next haccepted =>
    apply Roomy.keeps.unorphan _ _ fun _ _ => trivial
    obtain ⟨c, removed_high, trimmed, hc, htrim, rfl⟩ := admit_ok haccepted
    exact roomy_pool_entry hc htrim
  · cases h

theorem accept_settings (m : Mempool) (tx : Transaction) (cs : Chainstate) (now : ℕ) :
    (m.accept_tx tx cs now).2.settings = m.settings := by
  have hkeeps : Keeps (fun t : Mempool => t.settings = m.settings) fun _ => True := by
    apply Keeps.of_remove_inner
    · exact fun hs h => hs.settings.trans h
    · exact fun txid cause now height h => (Shrinks.remove_inner _ txid cause now height).settings.trans h
    · intro t tx cs c now removed_high trimmed _ _ _ _ h
      rw [(SumsOnly.pool_entry (trimmed.entered tx c now removed_high) tx cs c now).rest]
      exact h
  exact hkeeps.accept_tx rfl fun _ _ => trivial

def MarksPooled (m : Mempool) (op : PoolOp) : Prop := ∀ txid, op = .mark_unbroadcast txid → m.contains txid

def Marked (m : Mempool) : Prop := ∀ txid ∈ m.unbroadcast, m.body txid ≠ none

omit [PoolPolicy] in
theorem Marked.remove_inner {m : Mempool} (h : Marked m) (txid : Txid) (cause : RemovalCause) (now height : ℕ) :
    Marked (m.remove_inner txid cause now height) := by
  cases he : m.map.lookup txid with
  | none =>
    rw [remove_inner_none he]
    exact h
  | some entry =>
    intro id hid
    rw [(remove_inner_sums he cause now height).unbroadcast] at hid
    obtain ⟨hne, hid⟩ := Finset.mem_erase.mp hid
    rw [remove_inner_body, if_neg hne]
    exact h id hid

omit [Platform] [PoolPolicy] in
theorem Marked.sums {m t : Mempool} (h : Marked m) (hs : SumsOnly m t) : Marked t := by
  intro id hid
  rw [hs.unbroadcast] at hid
  rw [hs.body]
  exact h id hid

omit [Platform] [PoolPolicy] in
theorem Marked.insert {m : Mempool} (h : Marked m) (txid : Txid) (entry : MempoolEntry) :
    Marked { m with map := m.map.insert txid entry } := by
  intro id hid
  rw [body_insert]
  split
  · exact Option.some_ne_none _
  · exact h id hid

theorem Marked.keeps : Keeps Marked fun _ => True := by
  apply Keeps.of_remove_inner
  · intro m t hs h id hid
    rw [hs.unbroadcast] at hid
    rw [Ne, body_eq_none, hs.map, ← body_eq_none]
    exact h id hid
  · exact fun txid cause now height h => h.remove_inner txid cause now height
  · intro m tx cs c now removed_high trimmed _ _ _ _ h
    apply Marked.sums _ (SumsOnly.pool_entry _ tx cs c now)
    exact h.insert (Platform.txid tx) ((trimmed.entered tx c now removed_high).entry_of tx cs c now)

theorem Marked.edits {m : Mempool} (h : Marked m) {op : PoolOp} (hmark : MarksPooled m op) (hop : op.edits) :
    Marked (op.apply m) := by
  cases op with
  | accept_tx | expire | remove_recursive | on_block_connected | reinsert_disconnected | refill_from_disconnected =>
    cases hop
  | remove txid => exact h.remove_inner txid .Explicit 0 0
  | mark_unbroadcast txid =>
    intro id hid
    rcases Finset.mem_insert.mp hid with rfl | hid
    · have hc := hmark id rfl
      rw [contains_eq, Option.isSome_iff_ne_none] at hc
      exact hc
    · exact h id hid
  | clear_unbroadcast txid => exact fun id hid => h id (Finset.mem_of_mem_erase hid)
  | configure settings => exact h
  | restore txid time first_seen_height =>
    change Marked (m.restore txid time first_seen_height)
    unfold restore
    split
    · exact h
    · exact h.insert _ _
  | prioritise txid delta =>
    change Marked (m.prioritise txid delta)
    unfold prioritise
    dsimp only
    split
    · exact h
    · apply Marked.sums _ ((SumsOnly.resync _ _ _).trans (.adjust_all _ _ _ _))
      exact Marked.insert h _ _

theorem Marked.run {m : Mempool} (h : Run MarksPooled m) : Marked m := by
  induction h with
  | new => exact fun id hid => absurd hid (Finset.notMem_empty id)
  | step _ op hmark ih => exact Marked.keeps.apply ih (fun _ _ => trivial) (ih.edits hmark)

end

section

attribute [local instance] Platform.sample PoolPolicy.sample

end

end Mempool

end AvilaNode
