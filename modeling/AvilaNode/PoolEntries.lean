import AvilaNode.PoolRuns
import AvilaNode.TableRows

/-! What the edits of the pool leave of its entries. -/

namespace AvilaNode

open Layers

def MempoolEntry.body (entry : MempoolEntry) : MempoolEntry :=
  { entry with fees_with_descendants := 0, size_with_descendants := 0 }

variable {e e' : MempoolEntry}

theorem MempoolEntry.tx_of_body (h : e.body = e'.body) : e.tx = e'.tx :=
  (congrArg tx h : e.body.tx = e'.body.tx)

theorem MempoolEntry.fee_of_body (h : e.body = e'.body) : e.fee = e'.fee :=
  (congrArg fee h : e.body.fee = e'.body.fee)

theorem MempoolEntry.vsize_of_body (h : e.body = e'.body) : e.vsize = e'.vsize :=
  (congrArg vsize h : e.body.vsize = e'.body.vsize)

namespace Mempool

def body (m : Mempool) (txid : Txid) : Option MempoolEntry := (m.map.lookup txid).map MempoolEntry.body

variable {m t : Mempool} {txid : Txid}

theorem body_eq_none : m.body txid = none ↔ m.map.lookup txid = none := by
  rw [body, Option.map_eq_none_iff]

theorem contains_eq (m : Mempool) (txid : Txid) : m.contains txid = (m.body txid).isSome := by
  rw [contains, body, Option.isSome_map]

variable {entry : MempoolEntry}

theorem body_of_lookup (h : m.map.lookup txid = some entry) :
    m.body txid = some entry.body := by
  rw [body, h]
  rfl

structure SumsOnly (m t : Mempool) : Prop where
  rest : t = { m with map := t.map, score_index := t.score_index }
  body : ∀ txid, t.body txid = m.body txid
  total : ∀ {M : Type} [AddCommMonoid M] (f : MempoolEntry → M),
    (∀ e e' : MempoolEntry, e.body = e'.body → f e = f e') →
    total f t.map = total f m.map

theorem SumsOnly.refl (m : Mempool) : SumsOnly m m := ⟨rfl, fun _ => rfl, fun _ _ => rfl⟩

section

variable (h : SumsOnly m t)
include h

theorem SumsOnly.trans {u : Mempool} (h' : SumsOnly t u) : SumsOnly m u where
  rest := by
    have hu := h'.rest
    rw [h.rest] at hu
    exact hu
  body txid := (h'.body txid).trans (h.body txid)
  total f hf := (h'.total f hf).trans (h.total f hf)

theorem SumsOnly.spends : t.spends = m.spends := by
  rw [h.rest]

theorem SumsOnly.wtxids : t.wtxids = m.wtxids := by
  rw [h.rest]

theorem SumsOnly.pool_bytes : t.pool_bytes = m.pool_bytes := by
  rw [h.rest]

theorem SumsOnly.unbroadcast : t.unbroadcast = m.unbroadcast := by
  rw [h.rest]

end

theorem SumsOnly.resync (m : Mempool) (txid : Txid) (before : Option (ℤ × ℕ)) :
    SumsOnly m (m.resync_score_index txid before) := ⟨rfl, fun _ => rfl, fun _ _ => rfl⟩

theorem body_insert (m : Mempool) (txid id : Txid) (entry : MempoolEntry) :
    ({ m with map := m.map.insert txid entry } : Mempool).body id =
      if id = txid then some entry.body else m.body id := by
  unfold body
  rw [lookup_insert_eq]
  split <;> rfl

theorem SumsOnly.write {entry entry' : MempoolEntry} (h : m.map.lookup txid = some entry)
    (hb : entry'.body = entry.body) :
    SumsOnly m { m with map := m.map.insert txid entry' } where
  rest := rfl
  body id := by
    rw [body_insert, hb]
    split
    · next hid => rw [hid, body_of_lookup h]
    · rfl
  total _ hf := total_insert_same h (hf _ _ hb)

theorem SumsOnly.adjust (m : Mempool) (txid : Txid) (fee_delta size_delta : ℤ) :
    SumsOnly m (m.adjust_descendant_totals txid fee_delta size_delta) := by
  unfold adjust_descendant_totals
  split
  · exact .refl m
  · next entry h =>
    have hw : SumsOnly m { m with map := m.map.insert txid (shift_totals entry fee_delta size_delta) } := .write h rfl
    exact hw.trans (.resync _ _ _)

theorem SumsOnly.adjust_all (m : Mempool) (txids : List Txid) (fee_delta size_delta : ℤ) :
    SumsOnly m (m.adjust_all txids fee_delta size_delta) := by
  unfold Mempool.adjust_all
  induction txids generalizing m with
  | nil => exact .refl m
  | cons txid txids ih => exact (SumsOnly.adjust m txid fee_delta size_delta).trans (ih _)

theorem SumsOnly.count_existing (m : Mempool) (txid : Txid) (outputs : ℕ) (ancestors : List Txid) :
    SumsOnly m (m.count_existing txid outputs ancestors) := by
  unfold Mempool.count_existing
  split
  · exact (SumsOnly.adjust m _ _ _).trans (.adjust_all _ _ _ _)
  · exact .refl m

theorem len_eq_total (m : Mempool) : m.len = total (fun _ => 1) m.map := by
  rw [len, keys_eq_toList, List.length_map, total, List.map_const', List.sum_replicate, smul_eq_mul, mul_one]

theorem SumsOnly.len (h : SumsOnly m t) : t.len = m.len := by
  rw [len_eq_total, len_eq_total, h.total _ fun _ _ _ => rfl]

section

variable [Platform]

variable {txid : Txid}

theorem remove_inner_none (h : m.map.lookup txid = none) (cause : RemovalCause) (now height : ℕ) :
    m.remove_inner txid cause now height = m := by
  unfold remove_inner
  rw [h]

theorem remove_inner_sums (h : m.map.lookup txid = some entry) (cause : RemovalCause) (now height : ℕ) :
    SumsOnly ((m.unindex txid entry).record_removal txid entry cause now height)
      (m.remove_inner txid cause now height) := by
  have hadj := SumsOnly.adjust_all (m.unindex txid entry) ((m.unindex txid entry).ancestors_of entry.tx)
    (-entry.modified_fee) (-entry.vsize)
  unfold remove_inner
  rw [h]
  refine ⟨?_, fun id => hadj.body id, fun f hf => hadj.total f hf⟩
  dsimp only [record_removal]
  rw [hadj.rest]

theorem remove_inner_body (m : Mempool) (txid id : Txid) (cause : RemovalCause) (now height : ℕ) :
    (m.remove_inner txid cause now height).body id = if id = txid then none else m.body id := by
  cases h : m.map.lookup txid with
  | none =>
    rw [remove_inner_none h]
    split
    · next hid => rw [hid, body_eq_none.mpr h]
    · rfl
  | some entry =>
    rw [(remove_inner_sums h cause now height).body]
    change ((m.map.erase txid).lookup id).map _ = _
    rw [lookup_erase_eq]
    split <;> rfl

structure Shrinks (m t : Mempool) : Prop where
  body : ∀ txid, t.body txid = none ∨ t.body txid = m.body txid
  spends : ∀ op, t.spends.lookup op = none ∨ t.spends.lookup op = m.spends.lookup op
  unbroadcast : t.unbroadcast ⊆ m.unbroadcast
  len : t.len ≤ m.len
  pool_bytes : t.pool_bytes ≤ m.pool_bytes
  settings : t.settings = m.settings
  deltas : t.deltas = m.deltas
  orphans : t.orphans = m.orphans
  last_expire : t.last_expire = m.last_expire

omit [Platform] in
theorem Shrinks.refl (m : Mempool) : Shrinks m m :=
  ⟨fun _ => Or.inr rfl, fun _ => Or.inr rfl, Finset.Subset.refl _, le_rfl, le_rfl, rfl, rfl, rfl, rfl⟩

omit [Platform] in
theorem Shrinks.trans {m t u : Mempool} (h : Shrinks m t) (h' : Shrinks t u) : Shrinks m u where
  body txid := (h'.body txid).elim Or.inl fun he => he ▸ h.body txid
  spends op := (h'.spends op).elim Or.inl fun he => he ▸ h.spends op
  unbroadcast := Finset.Subset.trans h'.unbroadcast h.unbroadcast
  len := h'.len.trans h.len
  pool_bytes := h'.pool_bytes.trans h.pool_bytes
  settings := h'.settings.trans h.settings
  deltas := h'.deltas.trans h.deltas
  orphans := h'.orphans.trans h.orphans
  last_expire := h'.last_expire.trans h.last_expire

theorem Shrinks.remove_inner (m : Mempool) (txid : Txid) (cause : RemovalCause) (now height : ℕ) :
    Shrinks m (m.remove_inner txid cause now height) := by
  cases h : m.map.lookup txid with
  | none =>
    rw [remove_inner_none h]
    exact .refl m
  | some entry =>
    have hs := remove_inner_sums h cause now height
    refine ⟨fun id => ?_, fun op => ?_, ?_, ?_, ?_, ?_, ?_, ?_, ?_⟩
    · rw [remove_inner_body]
      split
      · exact Or.inl rfl
      · exact Or.inr rfl
    · rw [hs.spends]
      change (eraseAll m.spends _).lookup op = none ∨ (eraseAll m.spends _).lookup op = _
      rw [lookup_eraseAll]
      split
      · exact Or.inl rfl
      · exact Or.inr rfl
    · rw [hs.unbroadcast]
      exact Finset.erase_subset _ _
    · rw [hs.len, len_eq_total m, total_erase h, len_eq_total]
      exact Nat.le_add_left _ _
    · rw [hs.pool_bytes]
      exact Nat.sub_le _ _
    all_goals rw [hs.rest]; rfl

variable {P : Mempool → Prop} {cause : RemovalCause} {now height : ℕ}

section

variable (h : ∀ m txid, P m → P (m.remove_inner txid cause now height))
include h

theorem remove_walk_keeps (fuel : ℕ) (hp : P m) (txid : Txid) :
    P (remove_walk cause now height fuel m txid) := by
  induction fuel generalizing m txid with
  | zero => exact hp
  | succ fuel ih =>
    rw [remove_walk]
    apply h
    generalize m.children txid = children
    induction children generalizing m with
    | nil => exact hp
    | cons child children ih' => exact ih' (ih hp child)

theorem remove_recursive_keeps (hp : P m) (txid : Txid) :
    P (m.remove_recursive_inner txid cause now height) := remove_walk_keeps h _ hp txid

theorem remove_each_keeps (txids : List Txid) (hp : P m) : P (m.remove_each txids cause now height) := by
  unfold remove_each
  induction txids generalizing m with
  | nil => exact hp
  | cons txid txids ih => exact ih (remove_recursive_keeps h hp txid)

end

theorem Shrinks.remove_recursive (m : Mempool) (txid : Txid) (cause : RemovalCause) (now height : ℕ) :
    Shrinks m (m.remove_recursive_inner txid cause now height) :=
  remove_recursive_keeps (P := Shrinks m) (fun t id h => h.trans (.remove_inner t id cause now height)) (.refl m) txid

theorem Shrinks.remove_each (m : Mempool) (txids : List Txid) (cause : RemovalCause) (now height : ℕ) :
    Shrinks m (m.remove_each txids cause now height) :=
  remove_each_keeps (P := Shrinks m) (fun t id h => h.trans (.remove_inner t id cause now height)) txids (.refl m)

theorem Shrinks.sweep (m : Mempool) (now : ℕ) :
    Shrinks { m with last_expire := (m.sweep now).last_expire } (m.sweep now) := by
  unfold Mempool.sweep
  split
  · have hexpire : Shrinks { m with last_expire := now } (Mempool.expire { m with last_expire := now } now) :=
      expire_keeps (P := Shrinks _) (fun t id h => h.trans (.remove_recursive t id _ _ _)) (.refl _)
    rw [hexpire.last_expire]
    exact hexpire
  · exact .refl m

theorem remove_recursive_gone (m : Mempool) (txid : Txid) (cause : RemovalCause) (now height : ℕ) :
    (m.remove_recursive_inner txid cause now height).body txid = none := by
  unfold remove_recursive_inner
  rw [remove_walk, remove_inner_body, if_pos rfl]

theorem remove_each_gone {txids : List Txid} (h : txid ∈ txids) :
    (m.remove_each txids cause now height).body txid = none := by
  induction txids generalizing m with
  | nil => cases h
  | cons id txids ih =>
    rcases List.mem_cons.mp h with rfl | h
    · have hgone := remove_recursive_gone m txid cause now height
      rcases (Shrinks.remove_each
        (m.remove_recursive_inner txid cause now height) txids cause now height).body txid with hb | hb
      · exact hb
      · exact hb.trans hgone
    · exact ih h

theorem remove_rows_shrinks (now height : ℕ) (rows : List (Txid × RemovalCause)) (m : Mempool) :
    Shrinks m (rows.foldl (fun m row => m.remove_recursive_inner row.1 row.2 now height) m) := by
  induction rows generalizing m with
  | nil => exact .refl m
  | cons row rows ih => exact (Shrinks.remove_recursive m row.1 row.2 now height).trans (ih _)

theorem remove_rows_gone {rows : List (Txid × RemovalCause)} {row : Txid × RemovalCause} (h : row ∈ rows)
    (m : Mempool) :
    (rows.foldl (fun m row => m.remove_recursive_inner row.1 row.2 now height) m).body row.1 = none := by
  induction rows generalizing m with
  | nil => cases h
  | cons first rows ih =>
    rcases List.mem_cons.mp h with rfl | h
    · have hgone := remove_recursive_gone m row.1 row.2 now height
      have hrest := remove_rows_shrinks now height rows (m.remove_recursive_inner row.1 row.2 now height)
      exact (hrest.body row.1).elim (fun hb => hb) fun hb => hb.trans hgone
    · exact ih h _

theorem trim_keeps {c : Candidate} {tx_size now : ℕ}
    (h : ∀ m txid, P m → P (m.remove_recursive_inner txid .Evicted now c.next_height)) (rounds : ℕ)
    (removed_high : Option (ℤ × ℕ)) (hp : P m) : P (trim c tx_size now rounds removed_high m).2 := by
  induction rounds generalizing m removed_high with
  | zero => exact hp
  | succ rounds ih =>
    rw [trim]
    split
    · split
      · exact hp
      · split
        · exact ih _ (h _ _ hp)
        · exact hp
    · exact hp

theorem Shrinks.trim (c : Candidate) (tx_size now rounds : ℕ) (removed_high : Option (ℤ × ℕ)) (m : Mempool) :
    Shrinks m (trim c tx_size now rounds removed_high m).2 :=
  trim_keeps (P := Shrinks m) (fun t id h => h.trans (.remove_recursive t id _ _ _)) rounds removed_high (.refl m)

theorem trim_some {c : Candidate} {tx_size now rounds : ℕ} {removed_high high : Option (ℤ × ℕ)}
    (h : trim c tx_size now rounds removed_high m = (some high, t)) : t.crowded tx_size = false := by
  induction rounds generalizing m removed_high with
  | zero => cases h
  | succ rounds ih =>
    rw [trim] at h
    split at h
    · split at h
      · cases h
      · split at h
        · exact ih h
        · cases h
    · next hroom =>
      rw [← (Prod.mk.inj h).2]
      exact Bool.not_eq_true _ ▸ hroom

variable [PoolPolicy]

omit [PoolPolicy] in
theorem SumsOnly.pool_entry (m : Mempool) (tx : Transaction) (cs : Chainstate) (c : Candidate) (now : ℕ) :
    SumsOnly (m.index (Platform.txid tx) (m.entry_of tx cs c now)) (m.pool_entry tx cs c now) := by
  unfold Mempool.pool_entry
  exact ((SumsOnly.resync _ _ _).trans (.adjust_all _ _ _ _)).trans (.count_existing _ _ _ _)

omit [Platform] in
theorem raise_rolling_fee_same (m : Mempool) (removed_high : Option (ℤ × ℕ)) (now : ℕ) :
    SameEntries m (m.raise_rolling_fee removed_high now) := by
  unfold Mempool.raise_rolling_fee
  split
  · exact .refl m
  · dsimp only
    split
    · exact ⟨rfl, rfl, rfl, rfl, rfl, rfl, rfl, rfl⟩
    · exact .refl m

omit [Platform] in
theorem Shrinks.raise_rolling_fee (m : Mempool) (removed_high : Option (ℤ × ℕ)) (now : ℕ) :
    Shrinks m (m.raise_rolling_fee removed_high now) := by
  unfold Mempool.raise_rolling_fee
  split
  · exact .refl m
  · dsimp only
    split
    · exact ⟨fun _ => Or.inr rfl, fun _ => Or.inr rfl, Finset.Subset.refl _, le_rfl, le_rfl, rfl, rfl, rfl, rfl⟩
    · exact .refl m

omit [Platform] [PoolPolicy] in
theorem index_body [Platform] (m : Mempool) (txid id : Txid) (entry : MempoolEntry) :
    (m.index txid entry).body id = if id = txid then some entry.body else m.body id := body_insert m txid id entry

def entered (m : Mempool) (tx : Transaction) (c : Candidate) (now : ℕ) (removed_high : Option (ℤ × ℕ)) : Mempool :=
  (m.raise_rolling_fee removed_high now).remove_each c.conflicts (.Replaced (Platform.txid tx)) now c.next_height

variable {m t : Mempool} {tx : Transaction} {cs : Chainstate} {c : Candidate} {now : ℕ}

theorem enter_ok {id : Txid} (h : m.enter tx cs c now = (.ok id, t)) :
    ∃ removed_high trimmed, m.trim c tx.encode.length now (m.len + 1) none = (some removed_high, trimmed) ∧
      t = (trimmed.entered tx c now removed_high).pool_entry tx cs c now := by
  unfold enter at h
  split at h
  · cases h
  · next removed_high trimmed htrim => exact ⟨removed_high, trimmed, htrim, (Prod.mk.inj h).2.symm⟩

theorem enter_error {e : MempoolReject} (h : m.enter tx cs c now = (.error e, t)) :
    m.trim c tx.encode.length now (m.len + 1) none = (none, t) := by
  unfold enter at h
  split at h
  · next htrim =>
    rw [htrim, (Prod.mk.inj h).2]
  · cases h

theorem admit_ok {id : Txid} (h : m.accept_one tx cs now = (.ok id, t)) :
    ∃ c removed_high trimmed, (m.sweep now).examine tx cs now = .ok c ∧
      (m.sweep now).trim c tx.encode.length now ((m.sweep now).len + 1) none = (some removed_high, trimmed) ∧
      t = (trimmed.entered tx c now removed_high).pool_entry tx cs c now := by
  unfold accept_one at h
  split at h
  · dsimp only at h
    split at h
    · cases h
    · cases h
    · next c hc =>
      obtain ⟨removed_high, trimmed, htrim, ht⟩ := enter_ok h
      exact ⟨c, removed_high, trimmed, hc, htrim, ht⟩
  · cases h

theorem Shrinks.entered {removed_high : Option (ℤ × ℕ)} {trimmed : Mempool}
    (h : m.trim c tx.encode.length now (m.len + 1) none = (some removed_high, trimmed)) :
    Shrinks m (trimmed.entered tx c now removed_high) := by
  have htrim := Shrinks.trim c tx.encode.length now (m.len + 1) none m
  rw [h] at htrim
  exact (htrim.trans (.raise_rolling_fee _ _ _)).trans (.remove_each _ _ _ _ _)

theorem Keeps.of_remove_inner {Ok : Attempt → Prop} (quiet : ∀ {m t : Mempool}, SameEntries m t → P m → P t)
    (remove_inner : ∀ {m : Mempool} (txid : Txid) (cause : RemovalCause) (now height : ℕ), P m →
      P (m.remove_inner txid cause now height))
    (pool_entry : ∀ {m : Mempool} {tx : Transaction} {cs : Chainstate} {c : Candidate} {now : ℕ}
      {removed_high : Option (ℤ × ℕ)} {trimmed : Mempool}, P m → Ok ⟨m, tx, cs, now⟩ → m.examine tx cs now = .ok c →
      m.trim c tx.encode.length now (m.len + 1) none = (some removed_high, trimmed) →
      P (trimmed.entered tx c now removed_high) →
        P ((trimmed.entered tx c now removed_high).pool_entry tx cs c now)) :
    Keeps P Ok where
  quiet hs _ hp := quiet hs hp
  forget {m} _ hp := quiet (m := m) ⟨rfl, rfl, rfl, rfl, rfl, rfl, rfl, rfl⟩ hp
  remove_recursive txid cause now height hp :=
    remove_recursive_keeps (fun _ id hp => remove_inner id cause now height hp) hp txid
  remove_dependents _ now height hp :=
    remove_inner _ _ _ _ (remove_each_keeps (fun _ id hp => remove_inner id .ReorgDrop now height hp) _ hp)
  enter {m} tx cs c now hp hok hc := by
    have htrim : P (m.trim c tx.encode.length now (m.len + 1) none).2 :=
      trim_keeps (P := P) (fun _ id hp =>
        remove_recursive_keeps (fun _ id hp => remove_inner id _ _ _ hp) hp id) _ none hp
    cases hrun : m.enter tx cs c now with
    | mk r t =>
      cases r with
      | error e =>
        rw [enter_error hrun] at htrim
        exact htrim
      | ok id =>
        obtain ⟨removed_high, trimmed, heq, rfl⟩ := enter_ok hrun
        rw [heq] at htrim
        apply pool_entry hp hok hc heq
        apply remove_each_keeps fun _ id hp => remove_inner id _ _ _ hp
        exact quiet (raise_rolling_fee_same trimmed removed_high now) htrim

end

end Mempool

end AvilaNode
