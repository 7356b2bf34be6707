import AvilaNode.ScoreRows

/-! What a failed admission leaves of the pool. -/

namespace AvilaNode

open Layers Relation

namespace Mempool

structure Unchanged (m t : Mempool) : Prop where
  map : t.map = m.map
  spends : t.spends = m.spends
  wtxids : t.wtxids = m.wtxids
  pool_bytes : t.pool_bytes = m.pool_bytes
  score_index : t.score_index = m.score_index
  rolling_min_fee : t.rolling_min_fee = m.rolling_min_fee

theorem Unchanged.refl (m : Mempool) : Unchanged m m := ⟨rfl, rfl, rfl, rfl, rfl, rfl⟩

section

variable [Platform]

def Evicts (c : Candidate) (tx_size now : ℕ) (m t : Mempool) : Prop :=
  m.crowded tx_size ∧ ∃ worst, m.worst_by_descendant_score = some worst ∧ outbids c worst ∧
    t = m.remove_recursive_inner worst.txid .Evicted now c.next_height

def Holds (c : Candidate) (tx_size : ℕ) (m : Mempool) : Prop :=
  m.crowded tx_size ∧ ∀ worst, m.worst_by_descendant_score = some worst → outbids c worst = false

variable {m t : Mempool} {c : Candidate} {tx_size now : ℕ}

omit [Platform] in
theorem Scored.worst_pooled (h : Scored m) {worst : ScoreKey} (hw : m.worst_by_descendant_score = some worst) :
    m.body worst.txid ≠ none := by
  have hmem : worst ∈ m.score_index := List.mem_of_mem_head? hw
  obtain ⟨entry, he, -⟩ := mem_score_rows.mp (h.mem_iff.mp hmem)
  rw [Ne, body_eq_none, he]
  exact Option.some_ne_none entry

omit [Platform] in
theorem Shrinks.len_lt (h : Shrinks m t) {txid : Txid} (hm : m.body txid ≠ none) (ht : t.body txid = none) : t.len <
    m.len := by
  have hkeys : ∀ id, id ∈ m.map.keys ↔ m.body id ≠ none := by
    intro id
    rw [mem_keys_iff, Option.isSome_iff_ne_none, Ne, Ne, body_eq_none]
  have hsub : t.map.keys ⊆ m.map.keys.erase txid := by
    intro id hid
    have hbody : t.body id ≠ none := by
      rw [mem_keys_iff, Option.isSome_iff_ne_none] at hid
      rwa [Ne, body_eq_none]
    have hne : id ≠ txid := by
      rintro rfl
      exact hbody ht
    rw [List.mem_erase_of_ne hne, hkeys, ← (h.body id).resolve_left hbody]
    exact hbody
  have hle : t.map.keys.length ≤ (m.map.keys.erase txid).length :=
    (List.subperm_of_subset t.map.nodupKeys hsub).length_le
  have hmem : txid ∈ m.map.keys := (hkeys txid).mpr hm
  rw [List.length_erase_of_mem hmem] at hle
  have hpos := List.length_pos_of_mem hmem
  unfold Mempool.len
  omega

theorem Evicts.len_lt (hm : Scored m) (h : Evicts c tx_size now m t) : t.len < m.len := by
  obtain ⟨-, worst, hw, -, rfl⟩ := h
  exact (Shrinks.remove_recursive _ _ _ _ _).len_lt (hm.worst_pooled hw) (remove_recursive_gone _ _ _ _ _)

theorem Evicts.scored (hm : Scored m) (h : Evicts c tx_size now m t) : Scored t := by
  obtain ⟨-, worst, -, -, rfl⟩ := h
  exact remove_recursive_keeps (fun _ id hp => hp.remove_inner id _ _ _) hm _

theorem Shrinks.evicts (h : ReflTransGen (Evicts c tx_size now) m t) : Shrinks m t := by
  induction h with
  | refl => exact .refl m
  | tail _ hstep ih =>
    obtain ⟨-, worst, -, -, rfl⟩ := hstep
    exact ih.trans (.remove_recursive _ _ _ _ _)

theorem Evicts.unique {u : Mempool} (h : Evicts c tx_size now m t) (h' : Evicts c tx_size now m u) : t = u := by
  obtain ⟨-, worst, hw, -, rfl⟩ := h
  obtain ⟨-, worst', hw', -, rfl⟩ := h'
  rw [hw] at hw'
  cases hw'
  rfl

theorem Holds.stays (h : Holds c tx_size m) (ht : ReflTransGen (Evicts c tx_size now) m t) : t = m := by
  rcases ht.cases_head with rfl | ⟨u, ⟨-, worst, hw, hout, -⟩, -⟩
  · rfl
  · rw [h.2 worst hw] at hout
    cases hout

theorem trim_none_iff {rounds : ℕ} {high : Option (ℤ × ℕ)} (hm : Scored m) (hrounds : m.len < rounds) :
    trim c tx_size now rounds high m = (none, t) ↔
      ReflTransGen (Evicts c tx_size now) m t ∧ Holds c tx_size t := by
  induction rounds generalizing m high with
  | zero => exact absurd hrounds (Nat.not_lt_zero _)
  | succ rounds ih =>
    have hholds : Holds c tx_size m → (((none, m) : Option (Option (ℤ × ℕ)) × Mempool) = (none, t) ↔
        ReflTransGen (Evicts c tx_size now) m t ∧ Holds c tx_size t) := by
      intro hm
      constructor
      · rintro ⟨⟩
        exact ⟨.refl, hm⟩
      · rintro ⟨ht, -⟩
        rw [hm.stays ht]
    rw [trim]
    split
    · next hcrowded =>
      split
      · next hw =>
        apply hholds ⟨hcrowded, fun worst hworst => ?_⟩
        rw [hw] at hworst
        cases hworst
      · next worst hw =>
        split
        · next hout =>
          have hstep : Evicts c tx_size now m (m.remove_recursive_inner worst.txid .Evicted now c.next_height) :=
            ⟨hcrowded, worst, hw, hout, rfl⟩
          rw [ih (hstep.scored hm) (by have := hstep.len_lt hm; omega)]
          constructor
          · exact fun h => ⟨.head hstep h.1, h.2⟩
          · rintro ⟨ht, hstop⟩
            rcases ht.cases_head with rfl | ⟨u, hu, ht⟩
            · rw [hstop.2 worst hw] at hout
              cases hout
            · rw [← hstep.unique hu] at ht
              exact ⟨ht, hstop⟩
        · next hout =>
          apply hholds ⟨hcrowded, fun worst' hworst => ?_⟩
          rw [hw] at hworst
          cases hworst
          exact Bool.not_eq_true _ ▸ hout
    · next hroom =>
      constructor
      · rintro ⟨⟩
      · rintro ⟨ht, hstop⟩
        rcases ht.cases_head with rfl | ⟨u, hu, -⟩
        · exact absurd hstop.1 hroom
        · exact absurd hu.1 hroom

variable [PoolPolicy]

/-- The transaction passes every check; the trim for its room evicts a cluster at least, and then meets one that the
transaction does not outbid. -/
def StopsLate (m : Mempool) (tx : Transaction) (cs : Chainstate) (now : ℕ) : Prop :=
  PoolPolicy.admit_hook tx ∧ ∃ c, m.examine tx cs now = .ok c ∧
    ∃ t, TransGen (Evicts c tx.encode.length now) m t ∧ Holds c tx.encode.length t

omit [PoolPolicy] in
theorem sweep_not_due (h : now - m.last_expire < 60) : m.sweep now = m := by
  unfold sweep
  rw [if_neg (Nat.not_le_of_lt h)]

variable {tx : Transaction} {cs : Chainstate} {e : MempoolReject}

theorem accept_error (h : (m.accept_tx tx cs now).1 = .error e) :
    m.accept_tx tx cs now = (.error e, (m.accept_one tx cs now).2) ∧
      (m.accept_one tx cs now).1 = .error e := by
  unfold accept_tx at h ⊢
  split at h
  · cases h
  · next haccepted =>
    cases h
    rw [haccepted]
    exact ⟨rfl, rfl⟩

/-- Where the sweep is not due, an admission that fails for another reason than its inputs leaves the pool, unless the
trim had begun. -/
theorem failed_unchanged (hm : Scored m) (hsweep : now - m.last_expire < 60) (hlate : ¬ StopsLate m tx cs now)
    (h : (m.accept_tx tx cs now).1 = .error e) (he : e ≠ .InputsMissingOrSpent) : (m.accept_tx tx cs now).2 = m := by
  obtain ⟨haccept, haccepted⟩ := accept_error h
  rw [haccept]
  unfold accept_one at haccepted ⊢
  split at haccepted
  · next hook =>
    rw [if_pos hook]
    rw [sweep_not_due hsweep] at haccepted ⊢
    dsimp only at haccepted ⊢
    cases hc : m.examine tx cs now with
    | error e' =>
      rw [hc] at haccepted
      cases e' <;> first | rfl | (cases haccepted; exact absurd rfl he)
    | ok c =>
      rw [hc] at haccepted
      cases hrun : m.enter tx cs c now with
      | mk r t =>
        dsimp only at haccepted
        rw [hrun] at haccepted
        cases haccepted
        obtain ⟨hevicts, hholds⟩ := (trim_none_iff hm (Nat.lt_succ_self _)).mp (enter_error hrun)
        rcases Relation.reflTransGen_iff_eq_or_transGen.mp hevicts with rfl | hevicts
        · change (t.enter tx cs c now).2 = t
          rw [hrun]
        · exact absurd ⟨hook, c, hc, t, hevicts, hholds⟩ hlate
  · next hook =>
    rw [if_neg hook]

theorem stops_late_changes (hm : Scored m) (hsweep : now - m.last_expire < 60) (hlate : StopsLate m tx cs now) :
    (m.accept_tx tx cs now).1 = .error .Full ∧ (m.accept_tx tx cs now).2.map ≠ m.map := by
  obtain ⟨hook, c, hc, t, hevicts, hholds⟩ := hlate
  have htrim : m.trim c tx.encode.length now (m.len + 1) none = (none, t) :=
    (trim_none_iff hm (Nat.lt_succ_self _)).mpr ⟨hevicts.to_reflTransGen, hholds⟩
  have haccept : m.accept_tx tx cs now = (.error .Full, t) := by
    simp only [accept_tx, accept_one, if_pos hook, sweep_not_due hsweep, hc, enter, htrim]
  rw [haccept]
  refine ⟨rfl, fun hmap => ?_⟩
  obtain ⟨u, ⟨-, worst, hw, -, rfl⟩, hrest⟩ := TransGen.head'_iff.mp hevicts
  have hgone : t.body worst.txid = none :=
    ((Shrinks.evicts hrest).body _).elim id fun hb =>
      hb.trans (remove_recursive_gone m worst.txid .Evicted now c.next_height)
  apply hm.worst_pooled hw
  rw [body_eq_none] at hgone ⊢
  rw [← hmap]
  exact hgone

/-- A failed admission leaves the pool exactly where it does not stop late. -/
theorem failed_admission_exact (hm : Reachable m) (tx : Transaction) (cs : Chainstate) (now : ℕ)
    (hsweep : now - m.last_expire < 60) :
    (∀ e, (m.accept_tx tx cs now).1 = .error e → e ≠ .InputsMissingOrSpent → Unchanged m (m.accept_tx tx cs now).2) ↔
      ¬ StopsLate m tx cs now := by
  constructor
  · intro h hlate
    obtain ⟨hfull, hmap⟩ := stops_late_changes (.run hm) hsweep hlate
    exact hmap (h _ hfull (by decide)).map
  · intro hlate e h he
    rw [failed_unchanged (.run hm) hsweep hlate h he]
    exact .refl m

end

section

attribute [local instance] Platform.sample PoolPolicy.sample

def sample_full : Mempool :=
  ({ new with settings := { PoolSettings.default with max_bytes := 160 } }.accept_tx
    (sample_tx 1 [(1000, 0)] [999000])
    (sample_chain 3) 0).2.accept_tx (sample_tx 2 [(1001, 0)] [950000]) (sample_chain 3) 0 |>.2

theorem sample_full_reachable : Reachable sample_full :=
  .step (.step (.step .new (.configure { PoolSettings.default with max_bytes := 160 }) trivial)
    (.accept_tx (sample_tx 1 [(1000, 0)] [999000]) (sample_chain 3) 0) trivial)
    (.accept_tx (sample_tx 2 [(1001, 0)] [950000]) (sample_chain 3) 0) trivial

theorem failed_admission_exact_full :
    (∀ e, (sample_full.accept_tx (sample_tx 1 [(1000, 0)] [999000]) (sample_chain 3) 0).1 = .error e →
      e ≠ .InputsMissingOrSpent →
        Unchanged sample_full (sample_full.accept_tx (sample_tx 1 [(1000, 0)] [999000]) (sample_chain 3) 0).2) ↔
      ¬ StopsLate sample_full (sample_tx 1 [(1000, 0)] [999000]) (sample_chain 3) 0 :=
  failed_admission_exact sample_full_reachable _ _ 0 (by decide +kernel)

theorem full_evicts : ¬ ∀ m tx cs now e, Reachable m → now - m.last_expire < 60 →
    (m.accept_tx tx cs now).1 = .error e → e ≠ .InputsMissingOrSpent → Unchanged m (m.accept_tx tx cs now).2 := by
  intro h
  have hmap := (h sample_full (sample_tx 3 [(1002, 0)] [330000, 330000, 330000]) (sample_chain 3) 0 .Full
    sample_full_reachable (by decide +kernel) (by decide +kernel) (by decide)).map
  have hgone : (sample_full.accept_tx (sample_tx 3 [(1002, 0)] [330000, 330000, 330000])
    (sample_chain 3) 0).2.map.lookup 1
      = none := by decide +kernel
  rw [hmap] at hgone
  exact absurd hgone (by decide +kernel)

end

end Mempool

end AvilaNode
