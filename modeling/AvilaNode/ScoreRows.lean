import AvilaNode.PoolIndexes

/-! The rows of the score index: one for each entry, under the entry's own score. -/

namespace AvilaNode

open Layers

variable {rows : List ScoreKey}

namespace ScoreKey

theorem lt_irrefl (a : ScoreKey) : a.lt a = false := by
  simp [lt]

theorem lt_or_lt {a b : ScoreKey} (h : a.txid ≠ b.txid) : a.lt b = true ∨ b.lt a = true := by
  have hne : a.txid.toNat ≠ b.txid.toNat := fun he => h (BitVec.eq_of_toNat_eq he)
  simp only [lt, Bool.or_eq_true, Bool.and_eq_true, decide_eq_true_eq]
  omega

theorem remove_perm {key : ScoreKey} {rows rest : List ScoreKey} (h : rows.Perm (key :: rest))
    (hrest : ∀ row ∈ rest, row.txid ≠ key.txid) : (key.remove rows).Perm rest := by
  unfold remove
  refine (h.filter _).trans ?_
  rw [List.filter_cons_of_neg, List.filter_eq_self.mpr]
  · intro row hrow
    rw [Bool.or_eq_true]
    exact lt_or_lt (hrest row hrow).symm
  · rw [lt_irrefl]
    exact Bool.false_ne_true

theorem insert_perm {key : ScoreKey} (h : ∀ row ∈ rows, row.txid ≠ key.txid) :
    (key.insert rows).Perm (key :: rows) := by
  induction rows with
  | nil => exact .refl _
  | cons row rows ih =>
    rw [insert]
    split
    · exact .refl _
    · next hlt =>
      rw [if_pos ((lt_or_lt (h row List.mem_cons_self)).resolve_right hlt)]
      exact ((ih fun r hr => h r (List.mem_cons_of_mem row hr)).cons row).trans (.swap key row rows)

end ScoreKey

namespace Mempool

def score_rows (map : Table Txid MempoolEntry) : List ScoreKey :=
  (toList map).map fun row => score_key row.1 (effective_score row.2)

def Scored (m : Mempool) : Prop := m.score_index.Perm (score_rows m.map)

variable {map : Table Txid MempoolEntry}

theorem mem_score_rows {row : ScoreKey} : row ∈ score_rows map ↔
    ∃ entry, map.lookup row.txid = some entry ∧ row = score_key row.txid (effective_score entry) := by
  unfold score_rows
  rw [List.mem_map]
  constructor
  · rintro ⟨⟨txid, entry⟩, he, rfl⟩
    exact ⟨entry, mem_toList.mp he, rfl⟩
  · rintro ⟨entry, he, hrow⟩
    exact ⟨(row.txid, entry), mem_toList.mpr he, hrow.symm⟩

variable {txid : Txid} {entry : MempoolEntry} {m : Mempool}

theorem score_rows_erase (h : map.lookup txid = some entry) :
    (score_rows map).Perm (score_key txid (effective_score entry) :: score_rows (map.erase txid)) :=
  (toList_erase_perm h).map _

theorem txid_of_mem_erase {row : ScoreKey} (h : row ∈ score_rows (map.erase txid)) :
    row.txid ≠ txid := by
  rintro rfl
  obtain ⟨entry, he, -⟩ := mem_score_rows.mp h
  rw [lookup_erase_eq, if_pos rfl] at he
  cases he

theorem Scored.remove_row (h : Scored m) (he : m.map.lookup txid = some entry) :
    ((score_key txid (effective_score entry)).remove m.score_index).Perm (score_rows (m.map.erase txid)) :=
  ScoreKey.remove_perm (h.trans (score_rows_erase he)) fun _ hrow => txid_of_mem_erase hrow

theorem insert_row (h : rows.Perm (score_rows (map.erase txid))) (entry : MempoolEntry) :
    ((score_key txid (effective_score entry)).insert rows).Perm (score_rows (map.insert txid entry)) :=
  (ScoreKey.insert_perm fun _ hrow => txid_of_mem_erase (h.mem_iff.mp hrow)).trans (h.cons _)

theorem Scored.write (h : Scored m) {entry' : MempoolEntry} (he : m.map.lookup txid = some entry) :
    Scored (resync_score_index { m with map := m.map.insert txid entry' } txid (some (effective_score entry))) := by
  unfold Scored resync_score_index
  rw [lookup_insert_eq, if_pos rfl]
  exact insert_row (h.remove_row he) entry'

theorem Scored.adjust (h : Scored m) (txid : Txid) (fee_delta size_delta : ℤ) :
    Scored (m.adjust_descendant_totals txid fee_delta size_delta) := by
  unfold adjust_descendant_totals
  split
  · exact h
  · next he => exact h.write he

theorem Scored.adjust_all (h : Scored m) (txids : List Txid) (fee_delta size_delta : ℤ) :
    Scored (m.adjust_all txids fee_delta size_delta) := by
  unfold Mempool.adjust_all
  induction txids generalizing m with
  | nil => exact h
  | cons txid txids ih => exact ih (h.adjust txid fee_delta size_delta)

theorem Scored.count_existing (h : Scored m) (txid : Txid) (outputs : ℕ) (ancestors : List Txid) :
    Scored (m.count_existing txid outputs ancestors) := by
  unfold Mempool.count_existing
  split
  · exact (h.adjust _ _ _).adjust_all _ _ _
  · exact h

section

variable [Platform]

variable {m : Mempool}

theorem Scored.remove_inner (h : Scored m) (txid : Txid) (cause : RemovalCause) (now height : ℕ) :
    Scored (m.remove_inner txid cause now height) := by
  unfold Mempool.remove_inner
  split
  · exact h
  · next entry he =>
    apply Scored.adjust_all (m := m.unindex txid entry)
    exact h.remove_row he

theorem Scored.pool_entry (h : Scored m) {tx : Transaction} (cs : Chainstate) (c : Candidate) (now : ℕ)
    (hfresh : m.map.lookup (Platform.txid tx) = none) : Scored (m.pool_entry tx cs c now) := by
  unfold Mempool.pool_entry
  apply Scored.count_existing
  apply Scored.adjust_all
  have hlook : (m.index (Platform.txid tx) (m.entry_of tx cs c now)).map.lookup (Platform.txid tx) =
      some (m.entry_of tx cs c now) := AList.lookup_insert _
  unfold Scored resync_score_index
  rw [hlook]
  apply insert_row
  unfold score_rows
  rw [toList_erase_none hfresh]
  exact h

variable [PoolPolicy]

theorem Scored.keeps : Keeps Scored fun _ => True := by
  apply Keeps.of_remove_inner
  · intro m t hs h
    rw [Scored, hs.map, hs.score_index]
    exact h
  · exact fun txid cause now height h => h.remove_inner txid cause now height
  · exact fun _ _ hc htrim h => h.pool_entry _ _ _ (entered_fresh hc htrim)

theorem Scored.edits (h : Scored m) {op : PoolOp} (hop : op.edits) : Scored (op.apply m) := by
  cases op with
  | accept_tx | expire | remove_recursive | on_block_connected | reinsert_disconnected | refill_from_disconnected =>
    cases hop
  | remove txid => exact h.remove_inner txid .Explicit 0 0
  | mark_unbroadcast txid => exact h
  | clear_unbroadcast txid => exact h
  | configure settings => exact h
  | restore txid time first_seen_height =>
    change Scored (m.restore txid time first_seen_height)
    unfold restore
    split
    · exact h
    · next he =>
      have hrows := h.trans (score_rows_erase he)
      exact hrows
  | prioritise txid delta =>
    change Scored (m.prioritise txid delta)
    unfold prioritise
    dsimp only
    split
    · exact h
    · next he =>
      apply Scored.adjust_all
      exact Scored.write (m := { m with deltas := _ }) h he

theorem Scored.run (h : Reachable m) : Scored m := by
  induction h with
  | new => exact .refl _
  | step _ op _ ih => exact Scored.keeps.apply ih (fun _ _ => trivial) ih.edits

end

end Mempool

end AvilaNode
