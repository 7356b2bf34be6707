import AvilaNode.Connect

/-! The node's chain state: accepting blocks, reorganising, rewinding, flushing. -/

namespace AvilaNode

open Layers

inductive Acceptance where
  | Connected (height : ℕ) (reorged : Bool)
  | Parked (height : ℕ)
  | AlreadyKnown (height : ℕ)
deriving DecidableEq, Repr

inductive BlockRejection where
  | Header (err : ChainError)
  | CachedInvalid
  | Check (err : BlockRuleError)
  | Contextual (err : ContextualBlockError)
  | Connect (err : ConnectError)
deriving DecidableEq

structure PendingScripts where
  hash : BlockHash
  height : ℕ
  check : List QueuedCheck
  receipt : BlockReceipt

structure BlockRecord where
  hash : BlockHash
  undo : BlockUndo
  checks : List QueuedCheck

/-- Where a connect forked off, under which undo watermark, with which commit in flight, and on top of how many
pending blocks it ran its checks inline. -/
structure Connection where
  fork_height : ℕ
  undo_base : ℕ
  flush_target : Option ℕ
  pending_under : ℕ
deriving DecidableEq, Repr

structure Chainstate where
  tree : HeaderTree
  utxo : UtxoSet
  connected : BlockHash
  blocks : Table BlockHash Block
  chain : List BlockHash
  undos : List BlockUndo
  precious : Option BlockHash
  snapshot_base : Option ℕ
  undo_floor : Option (ℕ × BlockHash)
  disconnected : List BlockHash
  script_pool : Bool
  pending_scripts : List PendingScripts
  checked_feed : List (ℕ × BlockHash)
  spec_failed : Option BlockHash
  receipts : List BlockReceipt
  committed_coins_tip : ℕ
  inflight_flush : Option (ℕ × ℕ)
  scripts_verified : Wtxid → ScriptFlags → Bool
  /-- History for the proofs, which no function reads: one record a connected height, from 1. -/
  records : List BlockRecord
  /-- History for the proofs: every connect so far. -/
  connections : List Connection
  /-- History for the proofs: a rewind stopped before its target. -/
  stuck : Bool

def SPEC_DEPTH : ℕ := 8

def BRANCH_BATCH : ℕ := 256

def MAX_VISITS : ℕ := 2048

def CHECKED_CAP : ℕ := 8192

def RECEIPT_CAP : ℕ := 2016

def TWO_WEEKS : ℤ := 60 * 60 * 24 * 7 * 2

def push_capped {α : Type} (cap : ℕ) (queue : List α) (a : α) : List α :=
  (if cap ≤ queue.length then queue.drop 1 else queue) ++ [a]

/-- The work between two nodes as time at the tip's difficulty, capped at `i64::MAX`. -/
def block_proof_equivalent_time (to_ from_ tip : HeaderNode) (params : Params) : ℤ :=
  let sign : ℤ := if from_.chainwork < to_.chainwork then 1 else -1
  let work : ℕ := if from_.chainwork < to_.chainwork then to_.chainwork - from_.chainwork
    else from_.chainwork - to_.chainwork
  let proof : ℕ := Work.from_compact tip.header.bits
  if proof = 0 then sign * I64_MAX
  else
    let seconds : ℕ := work * params.pow_target_spacing % 2 ^ 256 / proof
    if 63 < seconds.size then sign * I64_MAX else sign * seconds

section

variable [Platform]

structure PreparedBlock where
  block : Block
  params : Params
  checked : check_block block params = .ok ()

/-- `connect_block_inner` as `Result`: a block past `check_block` never stops on an overflow. -/
def connect_block_full (block : Block) (utxo : UtxoSet) (ctx : ConnectContext) :
    Except ConnectError Connected × UtxoSet :=
  match connect_block_inner block utxo ctx with
  | (.ok connected, utxo) => (.ok connected, utxo)
  | (.err e, utxo) => (.error e, utxo)
  | (.panicked, utxo) => (.error (.Internal "attempt to add with overflow"), utxo)

def block_checks (block : Block) (utxo : UtxoSet) (ctx : ConnectContext) : List QueuedCheck :=
  match block_position ctx with
  | .error _ => []
  | .ok (height, parent_mtp) =>
    (apply_txs (apply_env block utxo ctx height parent_mtp) 0 block.transactions (start_applying utxo)).2.jobs

namespace Chainstate

def new (params : Params) : Chainstate where
  tree := .new params
  utxo := .new
  connected := params.genesis_header.hash
  blocks := ∅
  chain := [params.genesis_header.hash]
  undos := []
  precious := none
  snapshot_base := none
  undo_floor := none
  disconnected := []
  script_pool := false
  pending_scripts := []
  checked_feed := []
  spec_failed := none
  receipts := []
  committed_coins_tip := 0
  inflight_flush := none
  scripts_verified _ _ := false
  records := []
  connections := []
  stuck := false

def enable_speculative_connect (s : Chainstate) : Chainstate := { s with script_pool := true }

def params (s : Chainstate) : Params := s.tree.params

def tip_height (s : Chainstate) : ℕ := s.chain.length - 1

def checked_height (s : Chainstate) : ℕ := s.chain.length - 1 - s.pending_scripts.length

def push_checked (s : Chainstate) (height : ℕ) (hash : BlockHash) : Chainstate :=
  { s with checked_feed := push_capped CHECKED_CAP s.checked_feed (height, hash) }

def note_receipt (s : Chainstate) (receipt : BlockReceipt) : Chainstate :=
  { s with receipts := push_capped RECEIPT_CAP s.receipts receipt }

def take_checked (s : Chainstate) : List (ℕ × BlockHash) × Chainstate :=
  (s.checked_feed, { s with checked_feed := [] })

def have_body (s : Chainstate) (hash : BlockHash) : Bool :=
  hash == s.params.genesis_header.hash || (s.blocks.lookup hash).isSome

def body (s : Chainstate) (hash : BlockHash) : Option Block :=
  match s.blocks.lookup hash with
  | some block => some block
  | none => if hash = s.params.genesis_header.hash then s.params.genesis_block else none

def branch_body (s : Chainstate) (hash : BlockHash) : Option Block :=
  (s.body hash).filter fun block => block.block_hash == hash

def undo_base (s : Chainstate) : ℕ := if s.utxo.backend.isSome then s.committed_coins_tip else 0

/-- `undo` with the epochs of `view`: while a branch is simulated the set of the state is an emptied one. -/
def undo_through (s : Chainstate) (view : UtxoSet) (height : ℕ) : Option BlockUndo :=
  if height = 0 then none
  else if height ≤ s.undo_base then
    (view.epoch_undo height).or (s.utxo.backend.bind fun be => be.undo_at height)
  else s.undos[height - s.undo_base - 1]?

def undo (s : Chainstate) (height : ℕ) : Option BlockUndo := s.undo_through s.utxo height

def join_coins_flush (s : Chainstate) : Except IoError Unit × Chainstate :=
  match s.utxo.join_flush with
  | (.error e, utxo) => (.error e, { s with utxo })
  | (.ok (), utxo) =>
    match s.inflight_flush with
    | none => (.ok (), { s with utxo })
    | some (tip, _) =>
      (.ok (),
        { s with
          utxo
          undos := s.undos.drop (min (tip - s.committed_coins_tip) s.undos.length)
          committed_coins_tip := tip
          inflight_flush := none })

def tail_rows (s : Chainstate) : List UndoRow :=
  s.undos.mapIdx fun i u => (s.undo_base + 1 + i, s.chain.getD (s.undo_base + 1 + i) 0, u)

def flush_coins_with (s : Chainstate) (extra : List UndoRow) (tip : ℕ) : Except IoError Unit × Chainstate :=
  if s.utxo.backend.isNone then (.ok (), s)
  else
    match s.join_coins_flush with
    | (.error e, s) => (.error e, s)
    | (.ok (), s) =>
      match s.utxo.flush_to_backend_owned (extra ++ s.tail_rows) tip with
      | (.error e, utxo) => (.error e, { s with utxo })
      | (.ok (), utxo) => (.ok (), { s with utxo, inflight_flush := some (tip, s.undos.length) })

def preflight_rewind (s : Chainstate) (target : ℕ) : Except ConnectError Unit :=
  if s.undo_floor.any fun f => target < f.1 then .error (.Internal "rewind is below collected undo floor")
  else
    let heights := ((List.range (s.tip_height + 1)).filter fun height => target < height).reverse
    match heights.findSome? fun height =>
      match s.chain[height]? with
      | none => some (ConnectError.Internal "rewind height is outside active chain")
      | some hash =>
        if (s.body hash).isNone then some (.Internal "missing connected block body")
        else if (s.undo height).isNone then some (.Internal "missing connected undo")
        else none with
    | some e => .error e
    | none => .ok ()

def pop_tip (s : Chainstate) (hash : BlockHash) (utxo : UtxoSet) : Chainstate :=
  { s with
    utxo
    chain := s.chain.dropLast
    disconnected := s.disconnected ++ [hash]
    undos := s.undos.take (s.tip_height - 1 - s.undo_base)
    records := s.records.dropLast }

def rewind_step (s : Chainstate) : Except ConnectError Unit × Chainstate :=
  match s.chain[s.tip_height]? with
  | none => (.error (.Internal "rewind height is outside active chain"), s)
  | some block_hash =>
    match s.body block_hash with
    | none => (.error (.Internal "missing connected block body"), s)
    | some block =>
      match s.undo s.tip_height with
      | none => (.error (.Internal "missing connected undo"), s)
      | some undo =>
        match disconnect_block block s.utxo undo with
        | (.error _, utxo) => (.error (.Internal "disconnect undo inconsistent"), { s with utxo })
        | (.ok (), utxo) => (.ok (), s.pop_tip block_hash utxo)

def rewind_loop : ℕ → Chainstate → Except ConnectError Unit × Chainstate
  | 0, s => (.ok (), s)
  | steps + 1, s =>
    match s.rewind_step with
    | (.error e, s) => (.error e, s)
    | (.ok (), s) => rewind_loop steps s

def pending_under (s : Chainstate) (height : ℕ) : List PendingScripts :=
  s.pending_scripts.filter fun p => p.height ≤ height

def drop_pending_above (s : Chainstate) (height : ℕ) : Chainstate :=
  { s with pending_scripts := s.pending_under height }

def flush_coins_using (drain : Chainstate → Except ConnectError Unit × Chainstate) (s : Chainstate) :
    Except IoError Unit × Chainstate :=
  match drain s with
  | (.error _, s) => (.error (.other "pending script check failed"), s)
  | (.ok (), s) => s.flush_coins_with [] s.tip_height

def finish_rewind (drain : Chainstate → Except ConnectError Unit × Chainstate) (s : Chainstate) :
    Except ConnectError Unit × Chainstate :=
  match flush_coins_using drain { s with connected := s.chain.getLast?.getD s.connected } with
  | (.error _, s) => (.error (.Internal "coinsdb flush failed"), s)
  | (.ok (), s) => (.ok (), s)

def rewind_using (drain : Chainstate → Except ConnectError Unit × Chainstate) (s : Chainstate) (target : ℕ) :
    Except ConnectError Unit × Chainstate :=
  if s.undo_floor.any fun f => target < f.1 then
    (.error (.Internal "rewind is below collected undo floor"), s)
  else
    match rewind_loop (s.tip_height - target) (s.drop_pending_above target) with
    | (.error e, s) => (.error e, { s with stuck := true })
    | (.ok (), s) => finish_rewind drain s

def settle (s : Chainstate) (entry : PendingScripts) : Chainstate :=
  (s.push_checked entry.height entry.hash).note_receipt entry.receipt

def condemn (s : Chainstate) (entry : PendingScripts) : Chainstate :=
  { s with
    spec_failed := some entry.hash
    pending_scripts := s.pending_scripts.filter fun p => p.height < entry.height
    tree := s.tree.mark_invalid entry.hash }

/-- Each round takes an entry off the queue, so its length bounds the rounds, those of the drains a rewind
starts included. -/
def drain_pending_inner : ℕ → ℕ → Chainstate → Except ConnectError Unit × Chainstate
  | 0, _, s => (.ok (), s)
  | fuel + 1, depth, s =>
    if s.pending_scripts.length ≤ depth then (.ok (), s)
    else
      match s.pending_scripts with
      | [] => (.ok (), s)
      | entry :: rest =>
        match run_script_checks entry.check with
        | .ok () => drain_pending_inner fuel depth (settle { s with pending_scripts := rest } entry)
        | .error err =>
          match preflight_rewind { s with pending_scripts := rest } (entry.height - 1) with
          | .error preflight => (.error preflight, s)
          | .ok () =>
            match rewind_using (drain_pending_inner fuel 0) (condemn { s with pending_scripts := rest } entry)
                (entry.height - 1) with
            | (.error e, s) => (.error e, s)
            | (.ok (), s) => (.error (.ScriptVerify err), s)

def drain_pending_to (s : Chainstate) (depth : ℕ) : Except ConnectError Unit × Chainstate :=
  drain_pending_inner (s.pending_scripts.length + 1) depth s

def drain_scripts (s : Chainstate) : Except ConnectError Unit × Chainstate := s.drain_pending_to 0

def flush_coins (s : Chainstate) : Except IoError Unit × Chainstate := flush_coins_using drain_scripts s

def rewind_connected (s : Chainstate) (target : ℕ) : Except ConnectError Unit × Chainstate :=
  rewind_using drain_scripts s target

def script_checks (s : Chainstate) (hash : BlockHash) : Bool :=
  match s.params.assume_valid with
  | none => true
  | some assume =>
    match s.tree.get assume, s.tree.get hash, s.tree.get s.tree.tip_hash with
    | some av, some pindex, some best =>
      !s.tree.is_ancestor pindex av || !s.tree.is_ancestor pindex best
        || decide (best.chainwork < s.params.minimum_chain_work)
        || decide (block_proof_equivalent_time best pindex best s.params ≤ TWO_WEEKS)
    | _, _, _ => true

def context (s : Chainstate) (hash : BlockHash) (script_pool : Bool) : ConnectContext where
  params := s.params
  tree := s.tree
  block_hash := hash
  script_checks := s.script_checks hash
  script_pool := script_pool
  scripts_verified := s.scripts_verified

/-- The first height on the way down from `cursor` that the active chain holds, and the blocks above it,
lowest first. Heights go down, so the start's height bounds the walk. -/
def branch_walk (s : Chainstate) : ℕ → BlockHash → List BlockHash → Option (ℕ × List BlockHash)
  | 0, _, _ => none
  | fuel + 1, cursor, branch_hashes =>
    match s.tree.get cursor with
    | none => none
    | some node =>
      if s.chain[node.height]? = some cursor then some (node.height, branch_hashes)
      else branch_walk s fuel node.header.prev_block_hash (cursor :: branch_hashes)

def simulate_disconnect (s : Chainstate) (fork_height : ℕ) : ℕ → UtxoSet → Except ConnectError Unit × UtxoSet
  | 0, sim => (.ok (), sim)
  | above + 1, sim =>
    let height := fork_height + above + 1
    match (s.chain[height]?).bind s.branch_body with
    | none => (.error (.Internal "missing connected block body"), sim)
    | some block =>
      match s.undo_through .new height with
      | none => (.error (.Internal "missing connected undo"), sim)
      | some undo =>
        match disconnect_block block sim undo with
        | (.error _, sim) => (.error (.Internal "disconnect undo inconsistent"), sim)
        | (.ok (), sim) => simulate_disconnect s fork_height above sim

def simulate_connect (s : Chainstate) : List BlockHash → UtxoSet →
    Except ConnectError (List (BlockRecord × BlockReceipt)) × UtxoSet × HeaderTree
  | [], sim => (.ok [], sim, s.tree)
  | branch_hash :: branch_hashes, sim =>
    match s.branch_body branch_hash with
    | none => (.error (.Internal "missing branch block body"), sim, s.tree)
    | some block =>
      let ctx := s.context branch_hash false
      match connect_block_full block sim ctx with
      | (.error e, sim) => (.error e, sim, s.tree.mark_invalid branch_hash)
      | (.ok (undo, _, receipt), sim') =>
        match simulate_connect s branch_hashes sim' with
        | (.error e, sim, tree) => (.error e, sim, tree)
        | (.ok parts, sim'', tree) =>
          (.ok ((⟨branch_hash, undo, block_checks block sim ctx⟩, receipt) :: parts), sim'', tree)

def note_all (tree : HeaderTree) : List BlockHash → HeaderTree
  | [] => tree
  | hash :: hashes => note_all (tree.note_connected hash) hashes

def simulate_branch (s : Chainstate) (sim : UtxoSet) (fork_height : ℕ) (branch_hashes : List BlockHash) :
    Except ConnectError (List (BlockRecord × BlockReceipt)) × UtxoSet × HeaderTree :=
  match simulate_disconnect s fork_height (s.tip_height - fork_height) sim with
  | (.error e, sim) => (.error e, sim, s.tree)
  | (.ok (), sim) =>
    match simulate_connect s branch_hashes sim with
    | (.error e, sim, tree) => (.error e, sim, tree)
    | (.ok parts, sim, tree) => (.ok parts, sim, note_all tree branch_hashes)

def connection_at (s : Chainstate) (fork_height : ℕ) (under : List PendingScripts) : Connection :=
  ⟨fork_height, s.undo_base, s.inflight_flush.map Prod.fst, under.length⟩

def switch_branch (s : Chainstate) (fork_height : ℕ) (branch_hashes : List BlockHash)
    (parts : List (BlockRecord × BlockReceipt)) (utxo : UtxoSet) (tree : HeaderTree) : Chainstate :=
  { s with
    utxo
    tree
    disconnected := s.disconnected ++ (s.chain.drop (fork_height + 1)).reverse
    pending_scripts := s.pending_under fork_height
    undos := if s.undo_base ≤ fork_height then s.undos.take (fork_height - s.undo_base) else []
    chain := s.chain.take (fork_height + 1) ++ branch_hashes
    records := s.records.take fork_height ++ parts.map Prod.fst
    connections := s.connections ++ [s.connection_at fork_height (s.pending_under fork_height)] }

def note_receipts (s : Chainstate) : List BlockReceipt → Chainstate
  | [] => s
  | receipt :: receipts => note_receipts (s.note_receipt receipt) receipts

def push_all_checked (s : Chainstate) : ℕ → List BlockHash → Chainstate
  | _, [] => s
  | height, hash :: hashes => push_all_checked (s.push_checked height hash) (height + 1) hashes

def low_rows (s : Chainstate) (fork_height : ℕ) (new_undos : List BlockUndo) : List UndoRow :=
  (new_undos.take (s.undo_base - fork_height)).mapIdx fun i u =>
    (fork_height + 1 + i, s.chain.getD (fork_height + 1 + i) 0, u)

def adopt_branch (s : Chainstate) (hash : BlockHash) (fork_height : ℕ) (branch_hashes : List BlockHash)
    (parts : List (BlockRecord × BlockReceipt)) (utxo : UtxoSet) (tree : HeaderTree) :
    Except ConnectError (Option Bool) × Chainstate :=
  let disconnected := decide (fork_height < s.tip_height)
  let new_undos := parts.map fun p => p.1.undo
  let s := s.switch_branch fork_height branch_hashes parts utxo tree
  let s := (s.note_receipts (parts.map Prod.snd)).push_all_checked (fork_height + 1) branch_hashes
  let split := min (s.undo_base - fork_height) new_undos.length
  match (if 0 < split then s.flush_coins_with (s.low_rows fork_height new_undos) s.tip_height
    else (.ok (), s)) with
  | (.error _, s) => (.error (.Internal "coinsdb reorg flush"), s)
  | (.ok (), s) =>
    (.ok (some disconnected),
      { s with undos := s.undos ++ new_undos.drop split, connected := branch_hashes.getLast?.getD hash })

def outworks (s : Chainstate) (hash : BlockHash) (new_node conn_node : HeaderNode) : Bool :=
  decide (conn_node.chainwork < new_node.chainwork)
    || (decide (new_node.chainwork = conn_node.chainwork) && s.precious == some hash)

/-- The branch to simulate, or `none` where the candidate stays parked. -/
def branch_to_activate (s : Chainstate) (hash : BlockHash) : Except ConnectError (Option (ℕ × List BlockHash)) :=
  match s.tree.get hash with
  | none => .error (.Internal "reorg on unknown header")
  | some new_node =>
    match s.tree.get s.connected with
    | none => .error (.Internal "connected tip not in tree")
    | some conn_node =>
      if hash = s.connected then .ok none
      else if !s.outworks hash new_node conn_node then .ok none
      else if s.tree.is_failed hash then .ok none
      else
        match s.branch_walk (new_node.height + 1) hash [] with
        | none => .error (.Internal "branch walk left the tree")
        | some (fork_height, branch_hashes) =>
          let branch_hashes := branch_hashes.take BRANCH_BATCH
          if s.snapshot_base.any fun b => fork_height < b then .ok none
          else if s.undo_floor.any fun f => fork_height < f.1 then .ok none
          else if branch_hashes.any fun h => !s.have_body h then .ok none
          else .ok (some (fork_height, branch_hashes))

def maybe_reorg (s : Chainstate) (hash : BlockHash) : Except ConnectError (Option Bool) × Chainstate :=
  match s.branch_to_activate hash with
  | .error e => (.error e, s)
  | .ok none => (.ok none, s)
  | .ok (some (fork_height, branch_hashes)) =>
    match s.simulate_branch s.utxo.overlay.1 fork_height branch_hashes with
    | (.error e, sim, tree) =>
      (.error e, { s with utxo := s.utxo.overlay.2.unoverlay sim false, tree })
    | (.ok parts, sim, tree) =>
      s.adopt_branch hash fork_height branch_hashes parts (s.utxo.overlay.2.unoverlay sim true) tree

def descendant_walk (s : Chainstate) : ℕ → ℕ → List BlockHash → ℕ × BlockHash → BlockHash
  | 0, _, _, best => best.2
  | _, _, [], best => best.2
  | fuel + 1, visited, h :: stack, best =>
    if s.tree.is_failed h || !s.have_body h then descendant_walk s fuel visited stack best
    else
      let best := match s.tree.get h with
        | some node => if best.1 < node.chainwork then (node.chainwork, h) else best
        | none => best
      if MAX_VISITS ≤ visited + 1 then best.2
      else descendant_walk s fuel (visited + 1) ((s.tree.children_of h).reverse ++ stack) best

def best_bodied_descendant (s : Chainstate) (hash : BlockHash) : BlockHash :=
  match s.tree.get hash with
  | none => hash
  | some start =>
    s.descendant_walk s.tree.nodes.entries.length 0 (s.tree.children_of hash).reverse (start.chainwork, hash)

def linked (s : Chainstate) : ℕ → BlockHash → Bool
  | 0, _ => false
  | fuel + 1, cursor =>
    match s.tree.get cursor with
    | none => false
    | some node =>
      if s.chain[node.height]? = some cursor then true
      else if !s.have_body cursor || s.tree.is_failed cursor then false
      else linked s fuel node.header.prev_block_hash

def newly_linked_candidate (s : Chainstate) (hash : BlockHash) : Option BlockHash :=
  match s.tree.get hash with
  | none => none
  | some node => if s.linked (node.height + 1) hash then some (s.best_bodied_descendant hash) else none

def flush_if_needed (s : Chainstate) : Except BlockRejection Unit × Chainstate :=
  if s.utxo.needs_flush then
    match s.flush_coins with
    | (.error _, s) => (.error (.Connect (.Internal "coinsdb flush failed")), s)
    | (.ok (), s) => (.ok (), s)
  else (.ok (), s)

def push_tip (s : Chainstate) (record : BlockRecord) (utxo : UtxoSet) : Chainstate :=
  { s with
    utxo
    chain := s.chain ++ [record.hash]
    undos := s.undos ++ [record.undo]
    connected := record.hash
    tree := s.tree.note_connected record.hash
    records := s.records ++ [record]
    connections := s.connections ++ [s.connection_at s.tip_height []] }

def queue (s : Chainstate) (entry : PendingScripts) : Chainstate :=
  { s with pending_scripts := s.pending_scripts ++ [entry] }

def queue_or_settle (s : Chainstate) (hash : BlockHash) (height : ℕ) (receipt : BlockReceipt) :
    Option (List QueuedCheck) → Chainstate
  | some check => s.queue ⟨hash, height, check, receipt⟩
  | none => s.settle ⟨hash, height, [], receipt⟩

def continue_tip (s : Chainstate) (height : ℕ) : Except BlockRejection Acceptance × Chainstate :=
  let next := s.best_bodied_descendant s.connected
  match (if next ≠ s.connected then (s.maybe_reorg next).2 else s).flush_if_needed with
  | (.error e, s) => (.error e, s)
  | (.ok (), s) => (.ok (.Connected height false), s)

def drain_queued (s : Chainstate) (check : Option (List QueuedCheck)) : Except ConnectError Unit × Chainstate :=
  if check.isSome then s.drain_pending_to SPEC_DEPTH else (.ok (), s)

def extend_tip (s : Chainstate) (block : Block) (hash : BlockHash) (height : ℕ) :
    Except BlockRejection Acceptance × Chainstate :=
  let ctx := s.context hash s.script_pool
  match connect_block_full block s.utxo ctx with
  | (.error e, utxo) => (.error (.Connect e), { s with utxo, tree := s.tree.mark_invalid hash })
  | (.ok (undo, check, receipt), utxo) =>
    let s := s.push_tip ⟨hash, undo, block_checks block s.utxo ctx⟩ utxo
    match (s.queue_or_settle hash height receipt check).drain_queued check with
    | (.error e, s) => (.error (.Connect e), s)
    | (.ok (), s) => s.continue_tip height

/-- `maybe_reorg` with the verdict of the call it ends: `parked` where the candidate stays inactive. -/
def reorg_to (s : Chainstate) (target : BlockHash) (height : ℕ) (parked : Acceptance) :
    Except BlockRejection Acceptance × Chainstate :=
  match s.maybe_reorg target with
  | (.error e, s) => (.error (.Connect e), s)
  | (.ok none, s) => (.ok parked, s)
  | (.ok (some disconnected), s) =>
    match s.flush_if_needed with
    | (.error e, s) => (.error e, s)
    | (.ok (), s) => (.ok (.Connected height disconnected), s)

def retain_body (s : Chainstate) (hash : BlockHash) (block : Block) : Chainstate :=
  { s with
    blocks := s.blocks.insert hash block
    tree := s.tree.note_body hash block.transactions.length }

def ContextualBlockError.marks : ContextualBlockError → Bool
  | .BadWitnessNonceSize | .BadWitnessMerkleMatch | .UnexpectedWitness | .MissingMedianTimePast => false
  | _ => true

def activate_body (s : Chainstate) (block : Block) (hash : BlockHash) (height : ℕ) :
    Except BlockRejection Acceptance × Chainstate :=
  if block.header.prev_block_hash = s.connected then s.extend_tip block hash height
  else s.reorg_to ((s.newly_linked_candidate hash).getD hash) height (.Parked height)

def accept_body (s : Chainstate) (block : Block) (hash : BlockHash) (height : ℕ) :
    Except BlockRejection Acceptance × Chainstate :=
  match contextual_check_block block
    ⟨s.params, height, s.tree.median_time_past block.header.prev_block_hash⟩ with
  | .error e =>
    (.error (.Contextual e),
      if ContextualBlockError.marks e then { s with tree := s.tree.mark_invalid hash } else s)
  | .ok () => (s.retain_body hash block).activate_body block hash height

def accept_block_checked (s : Chainstate) (block : Block) (now : ℕ) :
    Except BlockRejection Acceptance × Chainstate :=
  let hash := block.block_hash
  match s.tree.insert block.header now with
  | (.error e, tree) => (.error (.Header e), { s with tree })
  | (.ok (.Added height), tree) => accept_body { s with tree } block hash height
  | (.ok (.AlreadyKnown height), tree) =>
    let s := { s with tree }
    if s.tree.is_failed hash then (.error .CachedInvalid, s)
    else if s.have_body hash then s.reorg_to hash height (.AlreadyKnown height)
    else s.accept_body block hash height

def accept_block (s : Chainstate) (block : Block) (now : ℕ) : Except BlockRejection Acceptance × Chainstate :=
  match check_block block s.params with
  | .error e => (.error (.Check e), s)
  | .ok () => s.accept_block_checked block now

def accept_prepared_block (s : Chainstate) (prepared : PreparedBlock) (now : ℕ) :
    Except BlockRejection Acceptance × Chainstate :=
  if prepared.params ≠ s.params then
    match check_block prepared.block s.params with
    | .error e => (.error (.Check e), s)
    | .ok () => s.accept_block_checked prepared.block now
  else s.accept_block_checked prepared.block now

def accept_header (s : Chainstate) (header : BlockHeader) (now : ℕ) : Except BlockRejection ℕ × Chainstate :=
  match s.tree.insert header now with
  | (.ok (.Added height), tree) => (.ok height, { s with tree })
  | (.ok (.AlreadyKnown height), tree) => (.ok height, { s with tree })
  | (.error e, tree) => (.error (.Header e), { s with tree })

def precious_block (s : Chainstate) (hash : BlockHash) : Except ConnectError Bool × Chainstate :=
  if s.tree.contains hash then
    match maybe_reorg { s with precious := some hash } hash with
    | (.error e, s) => (.error e, s)
    | (.ok _, s) => (.ok true, s)
  else (.ok false, s)

def best_candidate (s : Chainstate) (tried : List BlockHash) (conn_work : ℕ) :
    List (BlockHash × HeaderNode) → Option (ℕ × BlockHash) → Option (ℕ × BlockHash)
  | [], best => best
  | (h, node) :: nodes, best =>
    let skip := h == s.connected || tried.contains h || s.tree.is_failed h || !s.have_body h
    let eligible := decide (conn_work < node.chainwork)
      || (decide (node.chainwork = conn_work) && s.precious == some h)
    if !skip && eligible && best.all fun b => b.1 < node.chainwork then
      best_candidate s tried conn_work nodes (some (node.chainwork, h))
    else best_candidate s tried conn_work nodes best

def connected_work (s : Chainstate) : ℕ := ((s.tree.get s.connected).map HeaderNode.chainwork).getD Work.ZERO

/-- The loop of `activate_best`; it need not stop, and `none` is a run out of rounds. -/
def activate_best : ℕ → List BlockHash → Chainstate → Option Chainstate
  | 0, _, _ => none
  | rounds + 1, tried, s =>
    match s.best_candidate tried s.connected_work (toList s.tree.nodes) none with
    | none => some s
    | some (_, candidate) =>
      match s.maybe_reorg candidate with
      | (.ok (some _), s) => activate_best rounds [] s
      | (_, s) => activate_best rounds (candidate :: tried) s

def invalidate_block (s : Chainstate) (hash : BlockHash) (rounds : ℕ) :
    Option (Except ConnectError (Option ℕ) × Chainstate) :=
  match s.tree.get hash with
  | none => some (.ok none, s)
  | some node =>
    if node.height = 0 then some (.ok (some 0), s)
    else
      let active := s.chain[node.height]? == some hash
      match (if active then s.preflight_rewind (node.height - 1) else .ok ()) with
      | .error e => some (.error e, s)
      | .ok () =>
        let marked := { s with tree := s.tree.mark_invalid_subtree hash }
        match ((if active then marked.rewind_connected (node.height - 1) else (.ok (), marked)) :
            Except ConnectError Unit × Chainstate) with
        | (.error e, t) => some (.error e, t)
        | (.ok (), t) =>
          (activate_best rounds [] t).map fun u =>
            (.ok (some (t.disconnected.length - s.disconnected.length)), u)

def reconsider_block (s : Chainstate) (hash : BlockHash) (rounds : ℕ) :
    Option (Except ConnectError Bool × Chainstate) :=
  if s.tree.contains hash then
    (activate_best rounds [] { s with tree := s.tree.clear_invalid_subtree hash }).map fun s => (.ok true, s)
  else some (.ok false, s)

end Chainstate

end

end AvilaNode
