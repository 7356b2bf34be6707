import AvilaNode.ChainMoves

/-! What `maybe_reorg` elects, and what simulating the branch makes. -/

namespace AvilaNode

open Layers

def BlockRecord.Made [Platform] (r : BlockRecord) : Prop :=
  ∃ (block : Block) (utxo : UtxoSet) (ctx : ConnectContext) (check : Option (List QueuedCheck))
    (receipt : BlockReceipt),
    block.block_hash = r.hash ∧ (connect_block_full block utxo ctx).1 = .ok (r.undo, check, receipt) ∧
      r.checks = block_checks block utxo ctx

namespace Chainstate

variable [Platform]

structure Elected (s : Chainstate) (hash : BlockHash) (fork_height : ℕ) (branch_hashes : List BlockHash)
    (new_node conn_node : HeaderNode) (whole : List BlockHash) : Prop where
  known : s.tree.get hash = some new_node
  tip_known : s.tree.get s.connected = some conn_node
  inactive : hash ≠ s.connected
  outworks : s.outworks hash new_node conn_node = true
  unfailed : s.tree.is_failed hash = false
  walk : s.branch_walk (new_node.height + 1) hash [] = some (fork_height, whole)
  cut : branch_hashes = whole.take BRANCH_BATCH
  above_base : ∀ b, s.snapshot_base = some b → b ≤ fork_height
  above_floor : ∀ f, s.undo_floor = some f → f.1 ≤ fork_height
  bodied : ∀ h ∈ branch_hashes, s.have_body h = true

variable {s : Chainstate} {fork_height : ℕ} {branch_hashes : List BlockHash} {sim sim' : UtxoSet} {tree : HeaderTree}

variable {parts : List (BlockRecord × BlockReceipt)} {t : Chainstate} {hash : BlockHash}

theorem elected_of (h : s.branch_to_activate hash = .ok (some (fork_height, branch_hashes))) :
    ∃ new_node conn_node whole, s.Elected hash fork_height branch_hashes new_node conn_node whole := by
  unfold branch_to_activate at h
  split at h
  · cases h
  rename_i new_node hnew
  split at h
  · cases h
  rename_i conn_node hconn
  split at h
  · cases h
  rename_i hne
  split at h
  · cases h
  rename_i hwork
  split at h
  · cases h
  rename_i hfail
  split at h
  · cases h
  rename_i fork whole hwalk
  dsimp only at h
  split at h
  · cases h
  rename_i hbase
  split at h
  · cases h
  rename_i hfloor
  split at h
  · cases h
  rename_i hbody
  cases h
  refine ⟨new_node, conn_node, whole, hnew, hconn, hne, by simpa using hwork, by simpa using hfail,
    hwalk, rfl, ?_, ?_, by simpa using hbody⟩
  · intro b hb
    simpa [hb] using hbase
  · intro f hf
    simpa [hf] using hfloor

omit [Platform] in
theorem branch_walk_active {fuel : ℕ} {cursor : BlockHash} {above whole : List BlockHash}
    (h : s.branch_walk fuel cursor above = some (fork_height, whole)) :
    fork_height < s.chain.length := by
  induction fuel generalizing cursor above with
  | zero => cases h
  | succ fuel ih =>
    rw [branch_walk] at h
    split at h
    · cases h
    rename_i node _
    split at h
    · rename_i hactive
      cases h
      exact (List.getElem?_eq_some_iff.mp hactive).1
    · exact ih h

section

variable (h : s.simulate_connect branch_hashes sim = (.ok parts, sim', tree))
include h

theorem simulate_connect_hashes :
    parts.map (fun p => p.1.hash) = branch_hashes := by
  induction branch_hashes generalizing sim parts with
  | nil =>
    cases h
    rfl
  | cons hash branch_hashes ih =>
    rw [simulate_connect] at h
    split at h
    · cases h
    dsimp only at h
    split at h
    · cases h
    split at h
    · cases h
    · rename_i hrest
      cases h
      rw [List.map_cons, ih hrest]

theorem simulate_connect_made :
    ∀ p ∈ parts, p.1.Made := by
  induction branch_hashes generalizing sim parts with
  | nil =>
    cases h
    nofun
  | cons hash branch_hashes ih =>
    rw [simulate_connect] at h
    split at h
    · cases h
    rename_i block hbody
    dsimp only at h
    split at h
    · cases h
    rename_i undo check receipt utxo hconnect
    split at h
    · cases h
    rename_i hrest
    cases h
    have hhash : block.block_hash = hash := by
      simpa using (Option.filter_eq_some_iff.mp hbody).2
    intro p hp
    rcases List.mem_cons.mp hp with rfl | hp
    · exact ⟨block, sim, s.context hash false, check, receipt, hhash, by rw [hconnect], rfl⟩
    · exact ih hrest p hp

end

section

variable (h : s.simulate_branch sim fork_height branch_hashes = (.ok parts, sim', tree))
include h

theorem simulate_branch_made :
    ∀ p ∈ parts, p.1.Made := by
  unfold simulate_branch at h
  split at h
  · cases h
  split at h
  · cases h
  · rename_i hc
    cases h
    exact simulate_connect_made hc

theorem simulate_branch_hashes :
    parts.map (fun p => p.1.hash) = branch_hashes := by
  unfold simulate_branch at h
  split at h
  · cases h
  split at h
  · cases h
  · rename_i hc
    cases h
    exact simulate_connect_hashes hc

end

omit [Platform] in
theorem note_receipts_eq (s : Chainstate) (rs : List BlockReceipt) :
    ∃ receipts, s.note_receipts rs = { s with receipts } := by
  induction rs generalizing s with
  | nil => exact ⟨s.receipts, rfl⟩
  | cons r rs ih => exact ih _

omit [Platform] in
theorem push_all_checked_eq (s : Chainstate) (height : ℕ) (hashes : List BlockHash) :
    ∃ checked_feed, s.push_all_checked height hashes = { s with checked_feed } ∧
      checked_feed.Sublist (s.checked_feed ++ hashes.mapIdx fun i hash => (height + i, hash)) := by
  induction hashes generalizing s height with
  | nil => exact ⟨s.checked_feed, rfl, by simp⟩
  | cons hash hashes ih =>
    obtain ⟨checked_feed, he, hsub⟩ := ih (s.push_checked height hash) (height + 1)
    refine ⟨checked_feed, he, hsub.trans ?_⟩
    have hpush : (s.push_checked height hash).checked_feed.Sublist (s.checked_feed ++ [(height, hash)]) := by
      change (push_capped CHECKED_CAP s.checked_feed (height, hash)).Sublist _
      unfold push_capped
      split
      · exact (List.drop_sublist 1 _).append_right _
      · exact .refl _
    rw [List.mapIdx_cons]
    have hshift : (fun i h => (height + 1 + i, h)) = fun (i : ℕ) (h : BlockHash) => (height + (i + 1), h) := by
      funext i h
      congr 1
      omega
    rw [hshift]
    simpa using hpush.append_right (hashes.mapIdx fun i h => (height + (i + 1), h))

theorem join_eq (s : Chainstate) : ∃ utxo undos committed_coins_tip inflight_flush,
    s.join_coins_flush.2 = { s with utxo, undos, committed_coins_tip, inflight_flush } := by
  unfold join_coins_flush
  split
  · exact ⟨_, s.undos, s.committed_coins_tip, s.inflight_flush, rfl⟩
  · split
    · exact ⟨_, s.undos, s.committed_coins_tip, s.inflight_flush, rfl⟩
    · exact ⟨_, _, _, _, rfl⟩

theorem flush_eq (s : Chainstate) (extra : List UndoRow) (tip : ℕ) :
    ∃ utxo undos committed_coins_tip inflight_flush,
      (s.flush_coins_with extra tip).2 = { s with utxo, undos, committed_coins_tip, inflight_flush } := by
  obtain ⟨utxo, undos, committed_coins_tip, inflight_flush, hj⟩ := join_eq s
  unfold flush_coins_with
  split
  · exact ⟨s.utxo, s.undos, s.committed_coins_tip, s.inflight_flush, rfl⟩
  split
  · rename_i hm
    rw [hm] at hj
    exact ⟨_, _, _, _, hj⟩
  · rename_i hm
    rw [hm] at hj
    obtain rfl := hj
    split <;> exact ⟨_, undos, committed_coins_tip, _, rfl⟩

theorem rewind_step_error {e : ConnectError} (h : s.rewind_step = (.error e, t)) :
    ∃ utxo, t = { s with utxo } := by
  unfold rewind_step at h
  split at h
  · cases h
    exact ⟨_, rfl⟩
  split at h
  · cases h
    exact ⟨_, rfl⟩
  split at h
  · cases h
    exact ⟨_, rfl⟩
  · split at h <;> cases h
    exact ⟨_, rfl⟩

theorem rewind_step_ok (h : s.rewind_step = (.ok (), t)) :
    ∃ hash utxo, s.chain[s.tip_height]? = some hash ∧ t = s.pop_tip hash utxo ∧ s.tip_height ≠ 0 := by
  unfold rewind_step at h
  split at h
  · cases h
  rename_i hash hchain
  split at h
  · cases h
  split at h
  · cases h
  rename_i undo hundo
  split at h <;> cases h
  refine ⟨hash, _, hchain, rfl, fun hz => ?_⟩
  rw [hz] at hundo
  cases hundo

def popped (s : Chainstate) (n : ℕ) (utxo : UtxoSet) (undos : List BlockUndo) : Chainstate :=
  { s with
    utxo
    undos
    chain := s.chain.take (s.chain.length - n)
    records := s.records.take (s.records.length - n)
    disconnected := s.disconnected ++ (s.chain.drop (s.chain.length - n)).reverse }

omit [Platform] in
theorem popped_pop (s : Chainstate) (hchain : s.chain[s.tip_height]? = some hash) (n : ℕ) (utxo utxo' : UtxoSet)
    (undos : List BlockUndo) :
    (s.pop_tip hash utxo).popped n utxo' undos = s.popped (n + 1) utxo' undos := by
  obtain ⟨below, top, hl⟩ : ∃ below top, s.chain = below ++ [top] := by
    rcases List.eq_nil_or_concat s.chain with hl | ⟨below, top, hl⟩
    · simp [hl] at hchain
    · exact ⟨below, top, by rw [hl, List.concat_eq_append]⟩
  obtain rfl : top = hash := by simpa [tip_height, hl] using hchain
  have hdrop : s.chain.dropLast = below := by rw [hl, List.dropLast_concat]
  have hlen : s.chain.length = below.length + 1 := by simp [hl]
  have hchain' : s.chain.dropLast.take (s.chain.dropLast.length - n) = s.chain.take (s.chain.length - (n + 1)) := by
    rw [hdrop, hlen, hl, Nat.add_sub_add_right, List.take_append_of_le_length (Nat.sub_le _ _)]
  have hrecords : s.records.dropLast.take (s.records.dropLast.length - n) =
      s.records.take (s.records.length - (n + 1)) := by
    rw [List.length_dropLast, List.dropLast_eq_take, List.take_take]
    congr 1
    omega
  have hdisc : s.disconnected ++ [top] ++ (s.chain.dropLast.drop (s.chain.dropLast.length - n)).reverse =
      s.disconnected ++ (s.chain.drop (s.chain.length - (n + 1))).reverse := by
    rw [hdrop, hlen, hl, Nat.add_sub_add_right, List.drop_append_of_le_length (Nat.sub_le _ _), List.reverse_append,
      List.reverse_singleton, List.append_assoc]
  unfold popped pop_tip
  rw [hchain', hrecords, hdisc]

theorem rewind_loop_popped {steps : ℕ} {r : Except ConnectError Unit} (h : rewind_loop steps s = (r, t)) :
    ∃ n utxo undos, t = s.popped n utxo undos ∧ (r = .ok () → n = steps) ∧ (n = 0 ∨ n < s.chain.length) := by
  induction steps generalizing s with
  | zero =>
    refine ⟨0, s.utxo, s.undos, ?_, fun _ => rfl, Or.inl rfl⟩
    rw [← (Prod.mk.inj h).2]
    simp [popped]
  | succ steps ih =>
    rw [rewind_loop] at h
    split at h
    · rename_i hstep
      cases h
      obtain ⟨utxo, rfl⟩ := rewind_step_error hstep
      exact ⟨0, utxo, s.undos, by simp [popped], nofun, Or.inl rfl⟩
    · rename_i u hstep
      obtain ⟨hash, utxo, hchain, rfl, hpos⟩ := rewind_step_ok hstep
      obtain ⟨n, utxo', undos, rfl, hok, hn⟩ := ih h
      refine ⟨n + 1, utxo', undos, popped_pop s hchain n utxo utxo' undos, fun hr => by rw [hok hr], Or.inr ?_⟩
      have hlen : (s.pop_tip hash utxo).chain.length = s.chain.length - 1 := List.length_dropLast
      rw [hlen] at hn
      unfold tip_height at hpos
      omega

theorem adopt_eq (s : Chainstate) (hash : BlockHash) (fork_height : ℕ) (branch_hashes : List BlockHash)
    (parts : List (BlockRecord × BlockReceipt)) (utxo : UtxoSet) (tree : HeaderTree) :
    ∃ utxo' undos committed_coins_tip inflight_flush receipts checked_feed connected,
      (s.adopt_branch hash fork_height branch_hashes parts utxo tree).2 =
        { s.switch_branch fork_height branch_hashes parts utxo tree with
          utxo := utxo', undos, committed_coins_tip, inflight_flush, receipts, checked_feed, connected } ∧
      checked_feed.Sublist (s.checked_feed ++ branch_hashes.mapIdx fun i h => (fork_height + 1 + i, h)) ∧
      ((s.adopt_branch hash fork_height branch_hashes parts utxo tree).1 ≠
          .error (.Internal "coinsdb reorg flush") →
        (s.adopt_branch hash fork_height branch_hashes parts utxo tree).1 =
            .ok (some (decide (fork_height < s.tip_height))) ∧
          connected = branch_hashes.getLast?.getD hash) := by
  obtain ⟨receipts, hr⟩ := note_receipts_eq (s.switch_branch fork_height branch_hashes parts utxo tree)
    (parts.map Prod.snd)
  obtain ⟨checked_feed, hfeed, hsub⟩ := push_all_checked_eq
    { s.switch_branch fork_height branch_hashes parts utxo tree with receipts } (fork_height + 1) branch_hashes
  unfold adopt_branch
  dsimp only
  rw [hr, hfeed]
  generalize min (undo_base _ - fork_height) _ = split
  by_cases hpos : 0 < split
  · rw [if_pos hpos]
    obtain ⟨utxo', undos, committed_coins_tip, inflight_flush, hf⟩ := flush_eq
      { s.switch_branch fork_height branch_hashes parts utxo tree with receipts, checked_feed }
      (low_rows _ fork_height (parts.map fun p => p.1.undo)) (tip_height _)
    split
    · rename_i e t hm
      rw [hm] at hf
      obtain rfl := hf
      exact ⟨utxo', undos, _, _, _, _, _, rfl, hsub, fun hne => (hne rfl).elim⟩
    · rename_i t hm
      rw [hm] at hf
      obtain rfl := hf
      exact ⟨utxo', _, _, _, _, _, _, rfl, hsub, fun _ => ⟨rfl, rfl⟩⟩
  · rw [if_neg hpos]
    exact ⟨_, _, _, _, _, _, _, rfl, hsub, fun _ => ⟨rfl, rfl⟩⟩

theorem Move.connections (h : Move s t) : ∀ c ∈ s.connections, c ∈ t.connections := by
  intro c hc
  cases h with
  | @connect block undo check receipt utxo node stored known extends_tip connects =>
    cases check <;> exact List.mem_append_left _ hc
  | @rewound t target floor popped =>
    obtain ⟨n, utxo, undos, rfl, -⟩ := rewind_loop_popped popped
    exact hc
  | @rewind_stuck t target e floor popped =>
    obtain ⟨n, utxo, undos, rfl, -⟩ := rewind_loop_popped popped
    exact hc
  | @condemned t entry rest front preflight popped =>
    obtain ⟨n, utxo, undos, rfl, -⟩ := rewind_loop_popped popped
    exact hc
  | @condemned_stuck t entry rest e front preflight popped =>
    obtain ⟨n, utxo, undos, rfl, -⟩ := rewind_loop_popped popped
    exact hc
  | join =>
    obtain ⟨utxo, undos, committed_coins_tip, inflight_flush, hj⟩ := join_eq s
    rw [hj]
    exact hc
  | flush =>
    obtain ⟨utxo, undos, committed_coins_tip, inflight_flush, hf⟩ := flush_eq s [] s.tip_height
    rw [hf]
    exact hc
  | @adopt hash fork_height branch_hashes parts sim tree elected simulated =>
    obtain ⟨_, _, _, _, _, _, _, ha, -⟩ := adopt_eq s hash fork_height branch_hashes parts _ tree
    rw [ha]
    exact List.mem_append_left _ hc
  | _ => exact hc

end Chainstate

end AvilaNode
