import AvilaNode.ChainSound
import AvilaNode.FilterIndex
import AvilaNode.HeaderChanges
import AvilaNode.ScripthashIndex

/-! The undo of an active block, over whole runs. -/

namespace AvilaNode

open Layers UtxoSet

namespace Chainstate

section

variable [Platform]

variable {s t : Chainstate}

theorem Moves.filed (h : Moves s t) (hs : Filed s) (ha : ∀ c ∈ t.connections, c.Above) :
    Filed t := by
  induction h with
  | refl => exact hs
  | tail _ hm ih =>
    have hbefore := ih fun c hc => ha c (hm.connections c hc)
    exact hm.filed hbefore ha

def start (params : Params) (utxo : UtxoSet) : Chainstate := { Chainstate.new params with utxo }

theorem start_resting (params : Params) {utxo : UtxoSet} (h : UtxoSet.Reachable utxo) (hidle : utxo.flush_join = none)
    (hfloor : ∀ be, utxo.backend = some be → be.undo_floor = none) : Resting (start params utxo) := by
  refine ⟨h.ok, ⟨params.genesis_header.hash, rfl⟩, nofun, ?_, hfloor, nofun, rfl, hidle, ?_⟩
  · exact (List.map_eq_nil_iff.mpr List.drop_nil).symm
  · intro height _ _ hle
    have : height = 0 := Nat.le_zero.mp hle
    omega

def run (ops : List ChainOp) (s : Chainstate) : Option Chainstate := ops.foldlM ChainOp.apply s

theorem Reachable.run {Start : Chainstate → Prop} (h : Reachable Start s) {ops : List ChainOp}
    (ht : Chainstate.run ops s = some t) : Reachable Start t := by
  induction ops generalizing s with
  | nil =>
    cases ht
    exact h
  | cons op ops ih =>
    obtain ⟨u, hu, ht⟩ := Option.bind_eq_some_iff.mp ht
    exact ih (h.step hu) ht

end

def mined (prev : BlockHash) (nonce height : ℕ) : Block :=
  ⟨sample_header prev nonce (BitVec.ofNat 256 (100 + nonce)),
    [⟨1, [⟨OutPoint.NULL, push_int height ++ [1], 0xffffffff, []⟩], [⟨5000000000, []⟩], 100 + nonce⟩]⟩

section

attribute [local instance] Platform.sample

def sample_start : Chainstate := start sample_params (UtxoSet.new.attach_backend .empty)

theorem sample_start_resting : Resting sample_start :=
  start_resting _ (.attach_backend .empty .new rfl rfl (by simp [UtxoSet.new])) rfl (by rintro be ⟨⟩; rfl)

def reorg_below : List ChainOp :=
  [.accept_block (mined 1 2 1) 1000, .accept_block (mined 2 3 2) 1000, .accept_block (mined 3 4 3) 1000,
    .flush_coins, .join_coins_flush,
    .accept_block (mined 3 14 3) 1000, .accept_block (mined 14 15 4) 1000, .join_coins_flush]

end

end Chainstate

end AvilaNode

namespace AvilaNode

open Layers UtxoSet

structure Indexes where
  filterindex : Option FilterIndex
  scripthashindex : Option ScripthashIndex

def follow_branch {I : Type} (disconnect : I → ℕ → I) (append : I → ℕ → Block → BlockUndo → I)
    (fork_height old_tip_height : ℕ) (parts : List (Option Block × BlockUndo)) (index : I) : I :=
  let heights := (List.range' (fork_height + 1) (old_tip_height - fork_height)).reverse
  parts.zipIdx.foldl
    (fun index part =>
      match part.1.1 with
      | some b => append index (fork_height + 1 + part.2) b part.1.2
      | none => index)
    (heights.foldl disconnect index)

section

variable (sha256 : Script → Hash256) [Platform]

def Indexes.follow (ix : Indexes) (fork_height old_tip_height : ℕ) (parts : List (Option Block × BlockUndo)) :
    Indexes where
  filterindex := ix.filterindex.map
    (follow_branch FilterIndex.disconnect FilterIndex.append fork_height old_tip_height parts)
  scripthashindex := ix.scripthashindex.map
    (follow_branch ScripthashIndex.disconnect (ScripthashIndex.append sha256) fork_height old_tip_height parts)

namespace Chainstate

def maybe_reorg_indexed (s : Chainstate) (ix : Indexes) (hash : BlockHash) :
    Except ConnectError (Option Bool) × Chainstate × Indexes :=
  match s.branch_to_activate hash with
  | .error e => (.error e, s, ix)
  | .ok none => (.ok none, s, ix)
  | .ok (some (fork_height, branch_hashes)) =>
    match s.simulate_branch s.utxo.overlay.1 fork_height branch_hashes with
    | (.error e, sim, tree) =>
      (.error e, { s with utxo := s.utxo.overlay.2.unoverlay sim false, tree }, ix)
    | (.ok parts, sim, tree) =>
      let (r, t) := s.adopt_branch hash fork_height branch_hashes parts (s.utxo.overlay.2.unoverlay sim true) tree
      (r, t, ix.follow sha256 fork_height s.tip_height
        ((branch_hashes.map s.body).zip (parts.map fun p => p.1.undo)))

def failing_at (s : Chainstate) : List BlockHash → UtxoSet → Option BlockHash
  | [], _ => none
  | branch_hash :: branch_hashes, sim =>
    match s.branch_body branch_hash with
    | none => none
    | some block =>
      match connect_block_full block sim (s.context branch_hash false) with
      | (.error _, _) => some branch_hash
      | (.ok _, sim) => failing_at s branch_hashes sim

def failing_block (s : Chainstate) (hash : BlockHash) : Option BlockHash :=
  match s.branch_to_activate hash with
  | .ok (some (fork_height, branch_hashes)) =>
    match s.simulate_disconnect fork_height (s.tip_height - fork_height) s.utxo.overlay.1 with
    | (.ok (), sim) => s.failing_at branch_hashes sim
    | _ => none
  | _ => none

end Chainstate

end

namespace Chainstate

section

variable [Platform]

variable {s t : Chainstate} {branch_hashes : List BlockHash} {sim : UtxoSet} {b hash : BlockHash} {fork_height : ℕ}

theorem failing_at_spec (h : s.failing_at branch_hashes sim = some b) : b ∈ branch_hashes ∧ ∃ e sim',
      s.simulate_connect branch_hashes sim = (.error e, sim', s.tree.mark_invalid b) := by
  induction branch_hashes generalizing sim with
  | nil => cases h
  | cons branch_hash branch_hashes ih =>
    rw [failing_at] at h
    rw [simulate_connect]
    cases hb : s.branch_body branch_hash with
    | none =>
      rw [hb] at h
      cases h
    | some block =>
      rw [hb] at h
      dsimp only at h ⊢
      split at h
      · rename_i e utxo hc
        cases h
        rw [hc]
        exact ⟨List.mem_cons_self, e, utxo, rfl⟩
      · rename_i parts utxo hc
        obtain ⟨hmem, e, sim', hs⟩ := ih h
        rw [hc]
        dsimp only
        rw [hs]
        exact ⟨List.mem_cons_of_mem _ hmem, e, sim', rfl⟩

theorem failing_block_spec (h : s.failing_block hash = some b) :
    ∃ fork_height branch_hashes e sim, s.branch_to_activate hash = .ok (some (fork_height, branch_hashes)) ∧
      b ∈ branch_hashes ∧
      s.simulate_branch s.utxo.overlay.1 fork_height branch_hashes = (.error e, sim, s.tree.mark_invalid b) := by
  unfold failing_block at h
  split at h
  · rename_i fork_height branch_hashes hact
    split at h
    · rename_i sim hd
      obtain ⟨hmem, e, sim', hs⟩ := failing_at_spec h
      refine ⟨fork_height, branch_hashes, e, sim', hact, hmem, ?_⟩
      unfold simulate_branch
      rw [hd]
      dsimp only
      rw [hs]
    · cases h
  · cases h

theorem note_all_changes (t : HeaderTree) (hashes : List BlockHash) : t.Changes (note_all t hashes) := by
  induction hashes generalizing t with
  | nil => exact .refl
  | cons hash hashes ih => exact (ih _).head (.note_connected t hash)

variable {r : Except ConnectError (List (BlockRecord × BlockReceipt))}

theorem simulate_connect_changes {sim' : UtxoSet} {tree : HeaderTree}
    (h : s.simulate_connect branch_hashes sim = (r, sim', tree)) : s.tree.Changes tree := by
  induction branch_hashes generalizing sim r sim' tree with
  | nil =>
    cases h
    exact .refl
  | cons hash branch_hashes ih =>
    rw [simulate_connect] at h
    split at h
    · cases h
      exact .refl
    dsimp only at h
    split at h
    · cases h
      exact .single (.mark_invalid _ _)
    split at h
    · rename_i hr
      cases h
      exact ih hr
    · rename_i hr
      cases h
      exact ih hr

theorem simulate_branch_changes {sim' : UtxoSet} {tree : HeaderTree}
    (h : s.simulate_branch sim fork_height branch_hashes = (r, sim', tree)) : s.tree.Changes tree
    := by
  unfold simulate_branch at h
  split at h
  · cases h
    exact .refl
  split at h
  · rename_i hc
    cases h
    exact simulate_connect_changes hc
  · rename_i hc
    cases h
    exact (simulate_connect_changes hc).trans (note_all_changes _ _)

theorem Move.tree (h : Move s t) : s.tree.Changes t.tree := by
  have hloop : ∀ {steps : ℕ} {u v : Chainstate} {r : Except ConnectError Unit},
      rewind_loop steps u = (r, v) → v.tree = u.tree := by
    intro steps u v r hl
    obtain ⟨n, utxo, undos, rfl, -⟩ := rewind_loop_popped hl
    rfl
  cases h with
  | insert header now => exact .single (.insert _ header now)
  | mark hash => exact .single (.mark_invalid _ hash)
  | mark_subtree hash => exact .single (.mark_invalid_subtree _ hash)
  | clear_subtree hash => exact .single (.clear_invalid_subtree _ hash)
  | @retain_new block now height tree added =>
    have hi := HeaderTree.Change.insert s.tree block.header now
    rw [added] at hi
    exact (Relation.ReflTransGen.single hi).tail (.note_body _ _ _)
  | retain_known fresh => exact .single (.note_body _ _ _)
  | connect_failed failed hash => exact .single (.mark_invalid _ hash)
  | @connect block undo check receipt utxo node stored known extends_tip connects =>
    have hn := HeaderTree.Change.note_connected s.tree block.block_hash
    cases check <;> exact .single hn
  | rewound floor popped =>
    rw [hloop popped]
    exact .refl
  | rewind_stuck floor popped =>
    rw [hloop popped]
    exact .refl
  | condemned front preflight popped =>
    rw [hloop popped]
    exact .single (.mark_invalid _ _)
  | condemned_stuck front preflight popped =>
    rw [hloop popped]
    exact .single (.mark_invalid _ _)
  | join =>
    obtain ⟨utxo, undos, committed_coins_tip, inflight_flush, hj⟩ := join_eq s
    rw [hj]
  | flush =>
    obtain ⟨utxo, undos, committed_coins_tip, inflight_flush, hf⟩ := flush_eq s [] s.tip_height
    rw [hf]
  | simulate_failed elected simulated => exact simulate_branch_changes simulated
  | @adopt hash fork_height branch_hashes parts sim tree elected simulated =>
    obtain ⟨_, _, _, _, _, _, _, ha, -⟩ := adopt_eq s hash fork_height branch_hashes parts _ tree
    rw [ha]
    exact simulate_branch_changes simulated
  | _ => exact .refl

theorem Moves.tree (h : Moves s t) : s.tree.Changes t.tree := by
  induction h with
  | refl => exact .refl
  | tail _ hm ih => exact ih.trans hm.tree

theorem Moves.sound (h : Moves s t) (hs : Sound s) : Sound t :=
  h.invariant (fun _ _ hm hi => hm.sound hi) hs

/-- A node's chain state before its first call: the coins set in order, the header tree built from the genesis. -/
structure Begun (s : Chainstate) : Prop where
  sound : Sound s
  tree : ∃ params, HeaderTree.Changes (.new params) s.tree

theorem Begun.linked (h : Begun s) (hm : Moves s t) : t.tree.Linked := by
  obtain ⟨params, ht⟩ := h.tree
  exact HeaderTree.Changes.linked (ht.trans hm.tree) (HeaderTree.Linked.new params)

theorem Begun.closed (h : Begun s) (hm : Moves s t) (hroot : t.tree.Rooted) : t.tree.Closed := by
  obtain ⟨params, ht⟩ := h.tree
  exact HeaderTree.Changes.closed (ht.trans hm.tree) (HeaderTree.Linked.new params) hroot
    (HeaderTree.Closed.new params)

theorem branch_walk_below (hl : s.tree.Linked) (hroot : s.tree.Rooted) {fuel : ℕ} {cursor : BlockHash}
    {above whole : List BlockHash} (h : s.branch_walk fuel cursor above = some (fork_height, whole)) :
    ∀ b ∈ whole, b ∈ above ∨ s.tree.Below b cursor := by
  induction fuel generalizing cursor above with
  | zero => cases h
  | succ fuel ih =>
    rw [branch_walk] at h
    split at h
    · cases h
    rename_i node hn
    have hlink : s.tree.link cursor = some node.link := by rw [HeaderTree.link, hn]; rfl
    split at h
    · cases h
      exact fun b hb => Or.inl hb
    intro b hb
    rcases ih h b hb with hb | hb
    · rcases List.mem_cons.mp hb with rfl | hb
      · exact Or.inr .refl
      · exact Or.inl hb
    · right
      -- the walk goes on, so the parent is known and the header is not the genesis
      obtain ⟨q, hq⟩ : ∃ q, s.tree.link node.header.prev_block_hash = some q := by
        rw [HeaderTree.link]
        cases fuel with
        | zero => cases h
        | succ fuel =>
          rw [branch_walk] at h
          split at h
          · cases h
          · rename_i n hn'
            exact ⟨n.link, by rw [hn']; rfl⟩
      have hheight : node.height = q.height + 1 := hl.prev_height hroot hlink hq
      exact hb.tail (HeaderTree.parent_eq_some.mpr ⟨node.link, hlink, by change node.height ≠ 0; omega, rfl⟩)

theorem Begun.branch_unfailed {s₀ : Chainstate} (h : Begun s₀) (hm : Moves s₀ s) (hroot : s.tree.Rooted)
    (hact : s.branch_to_activate hash = .ok (some (fork_height, branch_hashes))) (hb : b ∈ branch_hashes) :
    b ∉ s.tree.invalid := by
  obtain ⟨new_node, conn_node, whole, he⟩ := elected_of hact
  rw [he.cut] at hb
  have hfail : hash ∉ s.tree.invalid := by simpa [HeaderTree.is_failed] using he.unfailed
  rcases branch_walk_below (h.linked hm) hroot he.walk b (List.mem_of_mem_take hb) with hb | hb
  · cases hb
  · exact fun hi => hfail ((h.closed hm hroot).below hb hi)

/-- What a failed reorganisation does to the tree: the failing block and its descendants become failed, and the
tip leaves them for the heaviest unfailed header. -/
structure MarkedOnly (t t' : HeaderTree) (b : BlockHash) : Prop where
  params : t'.params = t.params
  nodes : t'.nodes = t.nodes
  children : t'.children = t.children
  marks : ∀ d, t'.is_failed d = true ↔ t.is_failed d = true ∨ t.Below b d
  tip_kept : t'.is_failed t.tip = false → t'.tip = t.tip
  tip_moved : t'.is_failed t.tip = true →
    (∃ a l, t.link a = some l ∧ t'.is_failed a = false ∧ 0 < l.chainwork) → t'.BestTip t'.invalid t'.tip

theorem marked_only {t : HeaderTree} (hl : t.Linked) (hc : t.Closed) (hnew : b ∉ t.invalid) :
    MarkedOnly t (t.mark_invalid b) b := by
  have hsame : (t.mark_invalid b).params = t.params ∧ (t.mark_invalid b).nodes = t.nodes ∧
      (t.mark_invalid b).children = t.children := by
    unfold HeaderTree.mark_invalid
    rw [if_neg hnew]
    dsimp only
    split <;> exact ⟨rfl, rfl, rfl⟩
  obtain ⟨hkept, hmoved⟩ := HeaderTree.tip_mark_invalid hnew
  refine ⟨hsame.1, hsame.2.1, hsame.2.2, fun d => ?_, ?_, ?_⟩
  · obtain ⟨hsub, hsup, -⟩ := HeaderTree.mem_mark_invalid hl b d
    simp only [HeaderTree.is_failed, decide_eq_true_eq]
    exact ⟨hsub, hsup hc⟩
  · simpa only [HeaderTree.is_failed, decide_eq_false_iff_not] using hkept
  · simpa only [HeaderTree.is_failed, decide_eq_false_iff_not, decide_eq_true_eq] using hmoved

omit [Platform] in
theorem undo_congr (hs : SameStore s.utxo t.utxo) (hu : t.undos = s.undos)
    (hc : t.committed_coins_tip = s.committed_coins_tip) (height : ℕ) : t.undo height = s.undo height := by
  have hbase : t.undo_base = s.undo_base := undo_base_congr (by rw [hs.backend]) hc
  have hepoch : t.utxo.epoch_undo height = s.utxo.epoch_undo height := by
    unfold UtxoSet.epoch_undo
    rw [hs.runs]
  unfold undo undo_through
  rw [hbase, hepoch, hs.backend, hu]

/-- `Rooted` fails only if a header hashes to the genesis' parent, all zeros, where the upward walk of
`clear_invalid_subtree` would not end. -/
theorem failed_reorg_traceless {s₀ : Chainstate} (begun : Begun s₀) (moves : Moves s₀ s)
    (fails : s.failing_block hash = some b) {sha256 : Script → Hash256} {ix ix' : Indexes}
    {r : Except ConnectError (Option Bool)} (called : s.maybe_reorg_indexed sha256 ix hash = (r, t, ix')) :
    (∃ e, r = .error e) ∧ t.chain = s.chain ∧ t.connected = s.connected ∧ t.utxo.get = s.utxo.get ∧
      (∀ height, t.undo height = s.undo height) ∧ ix' = ix ∧
      t.tree = s.tree.mark_invalid b ∧ (s.tree.Rooted → MarkedOnly s.tree t.tree b) := by
  obtain ⟨fork_height, branch_hashes, e, sim, hact, hmem, hsim⟩ := failing_block_spec fails
  have hok := (moves.sound begun.sound).coins
  have hw := simulate_branch_writes s (overlay_ok hok) fork_height branch_hashes
  rw [hsim] at hw
  unfold maybe_reorg_indexed at called
  rw [hact] at called
  dsimp only at called
  rw [hsim] at called
  cases called
  refine ⟨⟨e, rfl⟩, rfl, rfl, get_unoverlay hok hw, ?_, rfl, rfl, fun rooted => ?_⟩
  · exact undo_congr (unoverlay_kept (hw.kept (overlay_ok hok)) false).same.same rfl rfl
  · exact marked_only (begun.linked moves) (begun.closed moves rooted)
      (begun.branch_unfailed moves rooted hact hmem)

end

section

attribute [local instance] Platform.sample

def overpaid : Block :=
  { mined 3 7 2 with transactions := (mined 3 7 2).transactions.map fun tx =>
    { tx with outputs := [⟨5000000001, []⟩] } }

def rivals : List ChainOp := [.accept_block (mined 1 2 1) 1000, .accept_block (mined 1 3 1) 1000]

def stored_overpaid (s : Chainstate) : Chainstate :=
  retain_body { s with tree := (s.tree.insert overpaid.header 1000).2 } overpaid.block_hash overpaid

theorem sample_begun : Begun sample_start := ⟨sample_start_resting.filed.sound, sample_params, .refl⟩

def is_added {ε : Type} : Except ε InsertStatus → Bool
  | .ok (.Added _) => true
  | _ => false

theorem stored_overpaid_moves : ∃ s, run rivals sample_start = some s ∧ Moves sample_start (stored_overpaid s) := by
  have hrun : (run rivals sample_start).any fun s => is_added (s.tree.insert overpaid.header 1000).1 := by decide
  obtain ⟨s, hs, hadd⟩ := (Option.any_eq_true _ _).mp hrun
  have hreach : Reachable (· = sample_start) s := Reachable.run (.start rfl) hs
  obtain ⟨s₀, rfl, hm⟩ := hreach.moves
  refine ⟨s, hs, hm.tail ?_⟩
  unfold is_added at hadd
  split at hadd
  · rename_i height hi
    exact Move.retain_new (Prod.ext hi rfl)
  · cases hadd

theorem failed_reorg_moves_tip : ¬ ∀ s₀ s, Begun s₀ → Moves s₀ s → s.pending_scripts = [] → ∀ hash b,
    s.failing_block hash = some b → (s.maybe_reorg hash).2.tree.tip = s.tree.tip := by
  intro h
  obtain ⟨s, hs, hm⟩ := stored_overpaid_moves
  have hrun : (run rivals sample_start).any fun s =>
      (stored_overpaid s).pending_scripts.isEmpty && (stored_overpaid s).failing_block 7 == some 7 &&
        ((stored_overpaid s).maybe_reorg 7).2.tree.tip != (stored_overpaid s).tree.tip := by decide
  rw [hs] at hrun
  simp only [Option.any_some, Bool.and_eq_true, List.isEmpty_iff, beq_iff_eq, bne_iff_ne] at hrun
  obtain ⟨⟨hpending, hfail⟩, htip⟩ := hrun
  exact htip (h sample_start _ sample_begun hm hpending 7 7 hfail)

theorem failed_reorg_traceless_overpaid :
    ∃ (s t : Chainstate) (ix' : Indexes) (r : Except ConnectError (Option Bool)),
    s.tree.Rooted ∧
    s.maybe_reorg_indexed (fun _ => 0) ⟨some .empty, some .empty⟩ 7 = (r, t, ix') ∧
    ((∃ e, r = .error e) ∧ t.chain = s.chain ∧ t.connected = s.connected ∧ t.utxo.get = s.utxo.get ∧
      (∀ height, t.undo height = s.undo height) ∧ ix' = ⟨some .empty, some .empty⟩ ∧
        t.tree = s.tree.mark_invalid 7 ∧ (s.tree.Rooted → MarkedOnly s.tree t.tree 7)) := by
  obtain ⟨s, hs, hm⟩ := stored_overpaid_moves
  have hrun : (run rivals sample_start).any fun s => (stored_overpaid s).failing_block 7 == some 7 &&
      ((stored_overpaid s).tree.get (stored_overpaid s).tree.params.genesis_header.prev_block_hash).isNone := by
    decide
  rw [hs] at hrun
  simp only [Option.any_some, Bool.and_eq_true, beq_iff_eq, Option.isNone_iff_eq_none] at hrun
  obtain ⟨hfail, hroot⟩ := hrun
  rcases hcall : (stored_overpaid s).maybe_reorg_indexed (fun _ => 0) ⟨some .empty, some .empty⟩ 7 with ⟨r, t, ix'⟩
  exact ⟨stored_overpaid s, t, ix', r, hroot, hcall, failed_reorg_traceless sample_begun hm hfail hcall⟩

end

end Chainstate

end AvilaNode
