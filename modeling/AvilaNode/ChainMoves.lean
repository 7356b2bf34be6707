import AvilaNode.Chainstate
import AvilaNode.HeaderLinks

/-! Every call on the chain state is a sequence of moves, so an invariant is proved on moves alone. -/

namespace AvilaNode

open Layers

namespace HeaderTree

variable [Platform]

variable {header : BlockHeader} {now height : ℕ}

variable {t t' : HeaderTree}

theorem insert_known (h : t.insert header now = (.ok (.AlreadyKnown height), t')) :
    t' = t ∧ ∃ node, t.get header.hash = some node ∧ node.height = height := by
  unfold insert at h
  split at h
  · rename_i node hg
    cases h
    exact ⟨rfl, node, hg, rfl⟩
  · split at h
    · cases h
    split at h
    · cases h
    split at h
    · cases h
    split at h
    · cases h
    split at h
    · cases h
    dsimp only at h
    split at h
    · cases h
    split at h
    · cases h
    · unfold insert_node at h
      split at h
      · cases h
      · split at h <;> cases h

theorem insert_added (h : t.insert header now = (.ok (.Added height), t')) :
    t.get header.hash = none ∧ header.prev_block_hash ∉ t.invalid ∧
      ∃ parent, t.get header.prev_block_hash = some parent ∧ parent.height + 1 = height ∧
        t.insert_node header parent = (.ok (.Added height), t') := by
  unfold insert at h
  split at h
  · cases h
  rename_i hnone
  split at h
  · cases h
  split at h
  · cases h
  rename_i parent hp
  split at h
  · cases h
  rename_i hvalid
  split at h
  · cases h
  split at h
  · cases h
  dsimp only at h
  split at h
  · cases h
  split at h
  · cases h
  refine ⟨hnone, hvalid, parent, hp, ?_, h⟩
  unfold insert_node at h
  split at h
  · cases h
  · split at h <;> cases h
    rfl

theorem insert_added_known (h : t.insert header now = (.ok (.Added height), t')) :
    ∃ node, t'.get header.hash = some node ∧ node.height = height := by
  obtain ⟨-, -, parent, -, -, hnode⟩ := insert_added h
  unfold insert_node at hnode
  split at hnode
  · cases hnode
  · split at hnode <;> cases hnode
    exact ⟨_, AList.lookup_insert _, rfl⟩

end HeaderTree

namespace Chainstate

variable [Platform]

inductive Move : Chainstate → Chainstate → Prop
  | insert (s : Chainstate) (header : BlockHeader) (now : ℕ) :
      Move s { s with tree := (s.tree.insert header now).2 }
  | mark (s : Chainstate) (hash : BlockHash) : Move s { s with tree := s.tree.mark_invalid hash }
  | mark_subtree (s : Chainstate) (hash : BlockHash) : Move s { s with tree := s.tree.mark_invalid_subtree hash }
  | clear_subtree (s : Chainstate) (hash : BlockHash) : Move s { s with tree := s.tree.clear_invalid_subtree hash }
  | precious (s : Chainstate) (hash : BlockHash) : Move s { s with precious := some hash }
  | take_checked (s : Chainstate) : Move s s.take_checked.2
  | verify (s : Chainstate) (scripts_verified : Wtxid → ScriptFlags → Bool) : Move s { s with scripts_verified }
  | speculate (s : Chainstate) : Move s s.enable_speculative_connect
  | retain_new {s : Chainstate} {block : Block} {now height : ℕ} {tree : HeaderTree}
      (added : s.tree.insert block.header now = (.ok (.Added height), tree)) :
      Move s (retain_body { s with tree } block.block_hash block)
  | retain_known {s : Chainstate} {block : Block} (fresh : s.have_body block.block_hash = false) :
      Move s (s.retain_body block.block_hash block)
  | connect_failed {s : Chainstate} {block : Block} {ctx : ConnectContext} {e : ConnectError} {utxo : UtxoSet}
      (failed : connect_block_full block s.utxo ctx = (.error e, utxo)) (hash : BlockHash) :
      Move s { s with utxo, tree := s.tree.mark_invalid hash }
  | connect {s : Chainstate} {block : Block} {undo : BlockUndo} {check : Option (List QueuedCheck)}
      {receipt : BlockReceipt} {utxo : UtxoSet} {node : HeaderNode}
      (stored : s.blocks.lookup block.block_hash = some block)
      (known : s.tree.get block.block_hash = some node)
      (extends_tip : block.header.prev_block_hash = s.connected)
      (connects : connect_block_full block s.utxo (s.context block.block_hash s.script_pool) =
        (.ok (undo, check, receipt), utxo)) :
      Move s ((s.push_tip ⟨block.block_hash, undo,
        block_checks block s.utxo (s.context block.block_hash s.script_pool)⟩
        utxo).queue_or_settle block.block_hash node.height receipt check)
  | settle {s : Chainstate} {entry : PendingScripts} {rest : List PendingScripts}
      (front : s.pending_scripts = entry :: rest) (passed : run_script_checks entry.check = .ok ()) :
      Move s ({ s with pending_scripts := rest }.settle entry)
  | rewound {s t : Chainstate} {target : ℕ} (floor : ¬ s.undo_floor.any fun f => target < f.1)
      (popped : rewind_loop (s.tip_height - target) (s.drop_pending_above target) = (.ok (), t)) :
      Move s { t with connected := t.chain.getLast?.getD t.connected }
  | rewind_stuck {s t : Chainstate} {target : ℕ} {e : ConnectError}
      (floor : ¬ s.undo_floor.any fun f => target < f.1)
      (popped : rewind_loop (s.tip_height - target) (s.drop_pending_above target) = (.error e, t)) :
      Move s { t with stuck := true }
  | condemned {s t : Chainstate} {entry : PendingScripts} {rest : List PendingScripts}
      (front : s.pending_scripts = entry :: rest)
      (preflight : preflight_rewind { s with pending_scripts := rest } (entry.height - 1) = .ok ())
      (popped : rewind_loop (s.tip_height - (entry.height - 1))
        (({ s with pending_scripts := rest }.condemn entry).drop_pending_above (entry.height - 1)) = (.ok (), t)) :
      Move s { t with connected := t.chain.getLast?.getD t.connected }
  | condemned_stuck {s t : Chainstate} {entry : PendingScripts} {rest : List PendingScripts} {e : ConnectError}
      (front : s.pending_scripts = entry :: rest)
      (preflight : preflight_rewind { s with pending_scripts := rest } (entry.height - 1) = .ok ())
      (popped : rewind_loop (s.tip_height - (entry.height - 1))
        (({ s with pending_scripts := rest }.condemn entry).drop_pending_above (entry.height - 1)) = (.error e, t)) :
      Move s { t with stuck := true }
  | join (s : Chainstate) : Move s s.join_coins_flush.2
  | flush (s : Chainstate) : Move s (s.flush_coins_with [] s.tip_height).2
  | land (s : Chainstate) : Move s { s with utxo := s.utxo.run_worker }
  | simulate_failed {s : Chainstate} {hash : BlockHash} {fork_height : ℕ} {branch_hashes : List BlockHash}
      {e : ConnectError} {sim : UtxoSet} {tree : HeaderTree}
      (elected : s.branch_to_activate hash = .ok (some (fork_height, branch_hashes)))
      (simulated : s.simulate_branch s.utxo.overlay.1 fork_height branch_hashes = (.error e, sim, tree)) :
      Move s { s with utxo := s.utxo.overlay.2.unoverlay sim false, tree }
  | adopt {s : Chainstate} {hash : BlockHash} {fork_height : ℕ} {branch_hashes : List BlockHash}
      {parts : List (BlockRecord × BlockReceipt)} {sim : UtxoSet} {tree : HeaderTree}
      (elected : s.branch_to_activate hash = .ok (some (fork_height, branch_hashes)))
      (simulated : s.simulate_branch s.utxo.overlay.1 fork_height branch_hashes = (.ok parts, sim, tree)) :
      Move s (s.adopt_branch hash fork_height branch_hashes parts (s.utxo.overlay.2.unoverlay sim true) tree).2

abbrev Moves : Chainstate → Chainstate → Prop := Relation.ReflTransGen Move

variable {s t : Chainstate} {block : Block} {node : HeaderNode} {hash : BlockHash} {rounds : ℕ}

theorem Moves.invariant {I : Chainstate → Prop} (hI : ∀ s t, Move s t → I s → I t) (h : Moves s t) (hs : I s) :
    I t := by
  induction h with
  | refl => exact hs
  | tail _ hm ih => exact hI _ _ hm ih

/-- The moves that drains, rewinds and the search for the best chain are made of: they store no body and judge only
those that are stored. -/
inductive Activate : Chainstate → Chainstate → Prop
  | connect_failed {s : Chainstate} {block : Block} {ctx : ConnectContext} {e : ConnectError} {utxo : UtxoSet}
      (stored : s.blocks.lookup block.block_hash = some block)
      (failed : connect_block_full block s.utxo ctx = (.error e, utxo)) :
      Activate s { s with utxo, tree := s.tree.mark_invalid block.block_hash }
  | connect {s : Chainstate} {block : Block} {undo : BlockUndo} {check : Option (List QueuedCheck)}
      {receipt : BlockReceipt} {utxo : UtxoSet} {node : HeaderNode}
      (stored : s.blocks.lookup block.block_hash = some block)
      (known : s.tree.get block.block_hash = some node)
      (extends_tip : block.header.prev_block_hash = s.connected)
      (connects : connect_block_full block s.utxo (s.context block.block_hash s.script_pool) =
        (.ok (undo, check, receipt), utxo)) :
      Activate s ((s.push_tip
        ⟨block.block_hash, undo, block_checks block s.utxo (s.context block.block_hash s.script_pool)⟩
        utxo).queue_or_settle block.block_hash node.height receipt check)
  | settle {s : Chainstate} {entry : PendingScripts} {rest : List PendingScripts}
      (front : s.pending_scripts = entry :: rest) (passed : run_script_checks entry.check = .ok ()) :
      Activate s ({ s with pending_scripts := rest }.settle entry)
  | rewound {s t : Chainstate} {target : ℕ} (floor : ¬ s.undo_floor.any fun f => target < f.1)
      (popped : rewind_loop (s.tip_height - target) (s.drop_pending_above target) = (.ok (), t)) :
      Activate s { t with connected := t.chain.getLast?.getD t.connected }
  | rewind_stuck {s t : Chainstate} {target : ℕ} {e : ConnectError}
      (floor : ¬ s.undo_floor.any fun f => target < f.1)
      (popped : rewind_loop (s.tip_height - target) (s.drop_pending_above target) = (.error e, t)) :
      Activate s { t with stuck := true }
  | condemned {s t : Chainstate} {entry : PendingScripts} {rest : List PendingScripts}
      (front : s.pending_scripts = entry :: rest)
      (preflight : preflight_rewind { s with pending_scripts := rest } (entry.height - 1) = .ok ())
      (popped : rewind_loop (s.tip_height - (entry.height - 1))
        (({ s with pending_scripts := rest }.condemn entry).drop_pending_above (entry.height - 1)) = (.ok (), t)) :
      Activate s { t with connected := t.chain.getLast?.getD t.connected }
  | condemned_stuck {s t : Chainstate} {entry : PendingScripts} {rest : List PendingScripts} {e : ConnectError}
      (front : s.pending_scripts = entry :: rest)
      (preflight : preflight_rewind { s with pending_scripts := rest } (entry.height - 1) = .ok ())
      (popped : rewind_loop (s.tip_height - (entry.height - 1))
        (({ s with pending_scripts := rest }.condemn entry).drop_pending_above (entry.height - 1)) = (.error e, t)) :
      Activate s { t with stuck := true }
  | flush (s : Chainstate) : Activate s (s.flush_coins_with [] s.tip_height).2
  | simulate_failed {s : Chainstate} {hash : BlockHash} {fork_height : ℕ} {branch_hashes : List BlockHash}
      {e : ConnectError} {sim : UtxoSet} {tree : HeaderTree}
      (elected : s.branch_to_activate hash = .ok (some (fork_height, branch_hashes)))
      (simulated : s.simulate_branch s.utxo.overlay.1 fork_height branch_hashes = (.error e, sim, tree)) :
      Activate s { s with utxo := s.utxo.overlay.2.unoverlay sim false, tree }
  | adopt {s : Chainstate} {hash : BlockHash} {fork_height : ℕ} {branch_hashes : List BlockHash}
      {parts : List (BlockRecord × BlockReceipt)} {sim : UtxoSet} {tree : HeaderTree}
      (elected : s.branch_to_activate hash = .ok (some (fork_height, branch_hashes)))
      (simulated : s.simulate_branch s.utxo.overlay.1 fork_height branch_hashes = (.ok parts, sim, tree)) :
      Activate s (s.adopt_branch hash fork_height branch_hashes parts (s.utxo.overlay.2.unoverlay sim true) tree).2

abbrev Activates : Chainstate → Chainstate → Prop := Relation.ReflTransGen Activate

theorem Activate.move (h : Activate s t) : Move s t := by
  cases h with
  | connect_failed stored failed => exact .connect_failed failed _
  | connect stored known extends_tip connects => exact .connect stored known extends_tip connects
  | settle front passed => exact .settle front passed
  | rewound floor popped => exact .rewound floor popped
  | rewind_stuck floor popped => exact .rewind_stuck floor popped
  | condemned front preflight popped => exact .condemned front preflight popped
  | condemned_stuck front preflight popped => exact .condemned_stuck front preflight popped
  | flush => exact .flush s
  | simulate_failed elected simulated => exact .simulate_failed elected simulated
  | adopt elected simulated => exact .adopt elected simulated

theorem Activates.moves (h : Activates s t) : Moves s t :=
  Relation.ReflTransGen.mono (fun _ _ => Activate.move) _ _ h

variable {drain : Chainstate → Except ConnectError Unit × Chainstate}

section

variable (hd : ∀ s, Activates s (drain s).2)
include hd

theorem flush_using_activates (s : Chainstate) :
    Activates s (flush_coins_using drain s).2 := by
  unfold flush_coins_using
  have hs := hd s
  split
  · rename_i t h
    rw [h] at hs
    exact hs
  · rename_i t h
    rw [h] at hs
    exact hs.tail (.flush t)

theorem finish_rewind_activates (h : Activate s { t with connected := t.chain.getLast?.getD t.connected }) :
    Activates s (finish_rewind drain t).2 := by
  unfold finish_rewind
  have hf := flush_using_activates hd { t with connected := t.chain.getLast?.getD t.connected }
  split
  · rename_i u hu
    rw [hu] at hf
    exact hf.head h
  · rename_i u hu
    rw [hu] at hf
    exact hf.head h

theorem rewind_using_activates (s : Chainstate) (target : ℕ) :
      Activates s (rewind_using drain s target).2 := by
  unfold rewind_using
  split
  · exact .refl
  rename_i hfloor
  split
  · rename_i e t hloop
    exact .single (.rewind_stuck hfloor hloop)
  · rename_i t hloop
    exact finish_rewind_activates hd (.rewound hfloor hloop)

end

theorem preflight_floor {target : ℕ} (h : s.preflight_rewind target = .ok ()) :
    ¬ s.undo_floor.any fun f => target < f.1 := by
  unfold preflight_rewind at h
  split at h
  · cases h
  · assumption

theorem condemned_activates (hd : ∀ s, Activates s (drain s).2) {entry : PendingScripts} {rest : List PendingScripts}
    (front : s.pending_scripts = entry :: rest)
    (preflight : preflight_rewind { s with pending_scripts := rest } (entry.height - 1) = .ok ()) :
    Activates s (rewind_using drain ({ s with pending_scripts := rest }.condemn entry) (entry.height - 1)).2 := by
  unfold rewind_using
  split
  · rename_i hfloor
    exact (preflight_floor preflight hfloor).elim
  split
  · rename_i e t hloop
    exact .single (.condemned_stuck front preflight hloop)
  · rename_i t hloop
    exact finish_rewind_activates hd (.condemned front preflight hloop)

theorem drain_activates (fuel depth : ℕ) (s : Chainstate) : Activates s (drain_pending_inner fuel depth s).2 := by
  induction fuel generalizing depth s with
  | zero => exact .refl
  | succ fuel ih =>
    rw [drain_pending_inner]
    split
    · exact .refl
    split
    · exact .refl
    rename_i entry rest hfront
    split
    · rename_i hpass
      exact (ih depth _).head (.settle hfront hpass)
    split
    · exact .refl
    rename_i hpre
    have hm := condemned_activates (ih 0) hfront hpre
    split
    · rename_i t ht
      rw [ht] at hm
      exact hm
    · rename_i t ht
      rw [ht] at hm
      exact hm

theorem drain_to_activates (s : Chainstate) (depth : ℕ) : Activates s (s.drain_pending_to depth).2 :=
    drain_activates _ depth s

theorem flush_activates (s : Chainstate) : Activates s s.flush_coins.2 :=
    flush_using_activates (drain_to_activates · 0) s

theorem rewind_activates (s : Chainstate) (target : ℕ) : Activates s (s.rewind_connected target).2 :=
  rewind_using_activates (drain_to_activates · 0) s target

theorem reorg_activates (s : Chainstate) (hash : BlockHash) : Activates s (s.maybe_reorg hash).2 := by
  unfold maybe_reorg
  split
  · exact .refl
  · exact .refl
  · rename_i fork_height branch_hashes helected
    split
    · rename_i e sim tree hsim
      exact .single (.simulate_failed helected hsim)
    · rename_i parts sim tree hsim
      exact .single (.adopt helected hsim)

theorem flush_if_needed_activates (s : Chainstate) : Activates s s.flush_if_needed.2 := by
  unfold flush_if_needed
  have hf := flush_activates s
  split
  · split
    · rename_i t ht
      rw [ht] at hf
      exact hf
    · rename_i t ht
      rw [ht] at hf
      exact hf
  · exact .refl

theorem reorg_to_activates (s : Chainstate) (target : BlockHash) (height : ℕ) (parked : Acceptance) :
    Activates s (s.reorg_to target height parked).2 := by
  unfold reorg_to
  have hr := reorg_activates s target
  split
  · rename_i t ht
    rw [ht] at hr
    exact hr
  · rename_i t ht
    rw [ht] at hr
    exact hr
  · rename_i d t ht
    rw [ht] at hr
    have hf := flush_if_needed_activates t
    split
    · rename_i u hu
      rw [hu] at hf
      exact hr.trans hf
    · rename_i u hu
      rw [hu] at hf
      exact hr.trans hf

theorem continue_tip_activates (s : Chainstate) (height : ℕ) : Activates s (s.continue_tip height).2 := by
  unfold continue_tip
  have hr : Activates s (if s.best_bodied_descendant s.connected ≠ s.connected
      then (s.maybe_reorg (s.best_bodied_descendant s.connected)).2 else s) := by
    split
    · exact reorg_activates s _
    · exact .refl
  have hf := flush_if_needed_activates (if s.best_bodied_descendant s.connected ≠ s.connected
      then (s.maybe_reorg (s.best_bodied_descendant s.connected)).2 else s)
  dsimp only
  split
  · rename_i u hu
    rw [hu] at hf
    exact hr.trans hf
  · rename_i u hu
    rw [hu] at hf
    exact hr.trans hf

theorem drain_queued_activates (s : Chainstate) (check : Option (List QueuedCheck)) :
    Activates s (s.drain_queued check).2 := by
  unfold drain_queued
  split
  · exact drain_to_activates s SPEC_DEPTH
  · exact .refl

theorem extend_activates (stored : s.blocks.lookup block.block_hash = some block)
    (known : s.tree.get block.block_hash = some node) (hprev : block.header.prev_block_hash = s.connected) :
    Activates s (s.extend_tip block block.block_hash node.height).2 := by
  unfold extend_tip
  dsimp only
  split
  · rename_i e utxo hc
    exact .single (.connect_failed stored hc)
  rename_i undo check receipt utxo hc
  have hm := Activate.connect stored known hprev hc
  have hd := drain_queued_activates ((s.push_tip ⟨block.block_hash, undo, block_checks block s.utxo
    (s.context block.block_hash s.script_pool)⟩ utxo).queue_or_settle block.block_hash node.height receipt check)
    check
  split
  · rename_i t ht
    rw [ht] at hd
    exact hd.head hm
  · rename_i t ht
    rw [ht] at hd
    exact (hd.head hm).trans (continue_tip_activates t _)

theorem activate_body_activates (stored : s.blocks.lookup block.block_hash = some block)
    (known : s.tree.get block.block_hash = some node) :
    Activates s (s.activate_body block block.block_hash node.height).2 := by
  unfold activate_body
  split
  · rename_i hprev
    exact extend_activates stored known hprev
  · exact reorg_to_activates s _ _ _

omit [Platform] in
theorem retain_stored (s : Chainstate) (hash : BlockHash) (block : Block) :
    (s.retain_body hash block).blocks.lookup hash = some block := by
  simp [retain_body]

omit [Platform] in
theorem retain_known (block : Block) (h : s.tree.get hash = some node) : (s.retain_body hash block).tree.get hash =
      some { node with n_tx := block.transactions.length } := by
  unfold retain_body HeaderTree.note_body
  rw [HeaderTree.get_set_node, if_pos rfl, h]
  rfl

theorem accept_body_moves (known : t.tree.get block.block_hash = some node) (ht : Moves s t)
    (hm : Move s (t.retain_body block.block_hash block)) :
    Moves s (t.accept_body block block.block_hash node.height).2 := by
  unfold accept_body
  split
  · split
    · exact ht.tail (.mark t _)
    · exact ht
  · have ha := activate_body_activates (retain_stored t _ block) (retain_known block known)
    exact ha.moves.head hm

theorem accept_checked_moves (s : Chainstate) (block : Block) (now : ℕ) :
    Moves s (s.accept_block_checked block now).2 := by
  unfold accept_block_checked
  dsimp only
  split
  · rename_i e tree hi
    have hm := Move.insert s block.header now
    rw [hi] at hm
    exact .single hm
  · rename_i height tree hi
    have hm := Move.insert s block.header now
    rw [hi] at hm
    obtain ⟨node, hget, rfl⟩ := HeaderTree.insert_added_known hi
    exact accept_body_moves hget (.single hm) (.retain_new hi)
  · rename_i height tree hi
    obtain ⟨rfl, node, hget, rfl⟩ := HeaderTree.insert_known hi
    split
    · exact .refl
    · split
      · exact (reorg_to_activates s _ _ _).moves
      · rename_i hfresh
        exact accept_body_moves hget .refl (.retain_known (by simpa using hfresh))

theorem accept_moves (s : Chainstate) (block : Block) (now : ℕ) : Moves s (s.accept_block block now).2 := by
  unfold accept_block
  split
  · exact .refl
  · exact accept_checked_moves s block now

theorem accept_prepared_moves (s : Chainstate) (prepared : PreparedBlock) (now : ℕ) :
    Moves s (s.accept_prepared_block prepared now).2 := by
  unfold accept_prepared_block
  split
  · split
    · exact .refl
    · exact accept_checked_moves s _ now
  · exact accept_checked_moves s _ now

theorem accept_header_moves (s : Chainstate) (header : BlockHeader) (now : ℕ) :
    Moves s (s.accept_header header now).2 := by
  have hm := Move.insert s header now
  unfold accept_header
  split <;> (rename_i hi; rw [hi] at hm; exact .single hm)

theorem precious_moves (s : Chainstate) (hash : BlockHash) : Moves s (s.precious_block hash).2 := by
  unfold precious_block
  split
  · have hr := (reorg_activates { s with precious := some hash } hash).moves
    split
    · rename_i hm
      rw [hm] at hr
      exact hr.head (.precious s hash)
    · rename_i hm
      rw [hm] at hr
      exact hr.head (.precious s hash)
  · exact .refl

theorem activate_best_activates {tried : List BlockHash} (h : activate_best rounds tried s = some t) :
    Activates s t := by
  induction rounds generalizing tried s with
  | zero => cases h
  | succ rounds ih =>
    rw [activate_best] at h
    split at h
    · cases h
      exact .refl
    rename_i work candidate hbest
    have hr := reorg_activates s candidate
    split at h
    · rename_i d u hm
      rw [hm] at hr
      exact hr.trans (ih h)
    · rename_i r u hne hm
      rw [hm] at hr
      exact hr.trans (ih h)

theorem invalidate_moves {r : Except ConnectError (Option ℕ)} (h : s.invalidate_block hash rounds = some (r, t)) :
    Moves s t := by
  unfold invalidate_block at h
  split at h
  · cases h
    exact .refl
  rename_i node hnode
  split at h
  · cases h
    exact .refl
  dsimp only at h
  split at h
  · cases h
    exact .refl
  have hmark := Relation.ReflTransGen.single (Move.mark_subtree s hash)
  have hr : Moves s ((if s.chain[node.height]? == some hash
      then rewind_connected { s with tree := s.tree.mark_invalid_subtree hash } (node.height - 1)
      else (.ok (), { s with tree := s.tree.mark_invalid_subtree hash })) :
        Except ConnectError Unit × Chainstate).2 := by
    split
    · exact hmark.trans (rewind_activates _ _).moves
    · exact hmark
  split at h
  · rename_i e u hu
    rw [hu] at hr
    cases h
    exact hr
  · rename_i u hu
    rw [hu] at hr
    obtain ⟨v, hv, he⟩ := Option.map_eq_some_iff.mp h
    cases he
    exact hr.trans (activate_best_activates hv).moves

theorem reconsider_moves {r : Except ConnectError Bool} (h : s.reconsider_block hash rounds = some (r, t)) :
    Moves s t := by
  unfold reconsider_block at h
  split at h
  · obtain ⟨u, hu, he⟩ := Option.map_eq_some_iff.mp h
    cases he
    exact (activate_best_activates hu).moves.head (.clear_subtree s hash)
  · cases h
    exact .refl

end Chainstate

inductive ChainOp [Platform] where
  | enable_speculative_connect
  | accept_header (header : BlockHeader) (now : ℕ)
  | accept_block (block : Block) (now : ℕ)
  | accept_prepared_block (prepared : PreparedBlock) (now : ℕ)
  | maybe_reorg (hash : BlockHash)
  | precious_block (hash : BlockHash)
  | invalidate_block (hash : BlockHash) (rounds : ℕ)
  | reconsider_block (hash : BlockHash) (rounds : ℕ)
  | rewind_connected (target : ℕ)
  | drain_scripts
  | take_checked
  | verify (scripts_verified : Wtxid → ScriptFlags → Bool)
  | flush_coins
  | flush_coins_with
  | join_coins_flush
  | commit_lands

namespace ChainOp

/-- `none` is a call that does not return within its rounds. -/
def apply [Platform] (s : Chainstate) : ChainOp → Option Chainstate
  | enable_speculative_connect => some s.enable_speculative_connect
  | accept_header header now => some (s.accept_header header now).2
  | accept_block block now => some (s.accept_block block now).2
  | accept_prepared_block prepared now => some (s.accept_prepared_block prepared now).2
  | maybe_reorg hash => some (s.maybe_reorg hash).2
  | precious_block hash => some (s.precious_block hash).2
  | invalidate_block hash rounds => (s.invalidate_block hash rounds).map Prod.snd
  | reconsider_block hash rounds => (s.reconsider_block hash rounds).map Prod.snd
  | rewind_connected target => some (s.rewind_connected target).2
  | drain_scripts => some s.drain_scripts.2
  | take_checked => some s.take_checked.2
  | verify scripts_verified => some { s with scripts_verified }
  | flush_coins => some s.flush_coins.2
  | flush_coins_with => some (s.flush_coins_with [] s.tip_height).2
  | join_coins_flush => some s.join_coins_flush.2
  | commit_lands => some { s with utxo := s.utxo.run_worker }

end ChainOp

namespace Chainstate

variable [Platform]

inductive Reachable (Start : Chainstate → Prop) : Chainstate → Prop
  | start {s : Chainstate} (h : Start s) : Reachable Start s
  | step {s t : Chainstate} (h : Reachable Start s) {op : ChainOp} (ht : op.apply s = some t) : Reachable Start t

theorem apply_moves {s t : Chainstate} {op : ChainOp} (h : op.apply s = some t) : Moves s t := by
  cases op with
  | enable_speculative_connect =>
    cases h
    exact .single (.speculate s)
  | accept_header header now =>
    cases h
    exact accept_header_moves s header now
  | accept_block block now =>
    cases h
    exact accept_moves s block now
  | accept_prepared_block prepared now =>
    cases h
    exact accept_prepared_moves s prepared now
  | maybe_reorg hash =>
    cases h
    exact (reorg_activates s hash).moves
  | precious_block hash =>
    cases h
    exact precious_moves s hash
  | invalidate_block hash rounds =>
    obtain ⟨⟨r, u⟩, hu, rfl⟩ := Option.map_eq_some_iff.mp h
    exact invalidate_moves hu
  | reconsider_block hash rounds =>
    obtain ⟨⟨r, u⟩, hu, rfl⟩ := Option.map_eq_some_iff.mp h
    exact reconsider_moves hu
  | rewind_connected target =>
    cases h
    exact (rewind_activates s target).moves
  | drain_scripts =>
    cases h
    exact (drain_to_activates s 0).moves
  | take_checked =>
    cases h
    exact .single (.take_checked s)
  | verify scripts_verified =>
    cases h
    exact .single (.verify s scripts_verified)
  | flush_coins =>
    cases h
    exact (flush_activates s).moves
  | flush_coins_with =>
    cases h
    exact .single (.flush s)
  | join_coins_flush =>
    cases h
    exact .single (.join s)
  | commit_lands =>
    cases h
    exact .single (.land s)

theorem Reachable.moves {Start : Chainstate → Prop} {s : Chainstate} (h : Reachable Start s) :
    ∃ s₀, Start s₀ ∧ Moves s₀ s := by
  induction h with
  | start h => exact ⟨_, h, .refl⟩
  | step _ ht ih =>
    obtain ⟨s₀, hs, hm⟩ := ih
    exact ⟨s₀, hs, hm.trans (apply_moves ht)⟩

end Chainstate

end AvilaNode
