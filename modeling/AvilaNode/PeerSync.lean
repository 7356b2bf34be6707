import AvilaNode.Chainstate
import AvilaNode.HeadersSync

/-! One peer's synchronization state: its header pages and the objects it owes. -/

namespace AvilaNode

def MAX_HEADERS_RESULTS : ℕ := 2000

def MAX_BLOCKS_IN_TRANSIT_PER_PEER : ℕ := 16

def MAX_PENDING_BLOCKS_PER_PEER : ℕ := 50000

inductive InvType where
  | Tx
  | Block
  | FilteredBlock
  | CompactBlock
  | Wtx
  | WitnessBlock
  | WitnessTx
  | Other (value : ℕ)
deriving DecidableEq, Repr

def InvType.is_block : InvType → Bool
  | Block | WitnessBlock => true
  | _ => false

def InvType.is_tx : InvType → Bool
  | Tx | Wtx | WitnessTx => true
  | _ => false

structure InvVector where
  inv_type : InvType
  hash : BlockHash
deriving DecidableEq, Repr

inductive Message where
  | GetHeaders (locator : List BlockHash) (stop : BlockHash)
  | GetData (want : List InvVector)
  | GetAdvice (block_hash : BlockHash)
deriving DecidableEq, Repr

inductive HeaderFault where
  | Work (err : PowError)
  | Rejected (rej : BlockRejection)

inductive SyncError where
  | DiscontinuousHeaders
  | InvalidHeader (reason : HeaderFault)
  | InvalidBlock (reason : BlockRejection)

structure HeadersOutcome where
  added : ℕ
  known : ℕ
  continuation : Option Message
  fetchable : List BlockHash
  give_up_leadership : Bool

def HeadersOutcome.default : HeadersOutcome := ⟨0, 0, none, [], false⟩

structure BlockOutcome where
  acceptance : Option Acceptance
  was_in_flight : Bool

structure PeerSync where
  in_flight : List (BlockHash × ℕ)
  wanted : Finset BlockHash
  wanted_advice : Finset BlockHash
  headers_in_flight : Option ℕ
  pending_blocks : List BlockHash
  pending_set : Finset BlockHash
  headers_applied : ℕ
  blocks_received : ℕ
  headers_sync : Option HeadersSyncState

variable [Platform]

def locator_walk (t : HeaderTree) : ℕ → ℕ → ℕ → BlockHash → ℕ → List BlockHash
  | 0, _, _, hash, _ => [hash]
  | fuel + 1, have_len, step, hash, height =>
    hash ::
      if height = 0 then []
      else
        match t.get_ancestor hash (height - step) with
        | none => []
        | some node =>
          locator_walk t fuel (have_len + 1)
            (if 10 < have_len + 1 then min (step * 2) (2 ^ 32 - 1) else step) node.hash
            (height - step)

def locator_from (t : HeaderTree) (start_hash : BlockHash) (start_height : ℕ) : List BlockHash :=
  locator_walk t start_height 0 1 start_hash start_height

def HeadersSyncState.next_headers_request (s : HeadersSyncState) (cs : Chainstate) : Message :=
  let reached := match s.phase with
    | .Presync => [s.last_header_received.hash]
    | .Redownload => [s.redownload_last_hash]
    | .Final => []
  .GetHeaders (reached ++ locator_from cs.tree s.chain_start_hash s.chain_start_height) 0

def anti_dos_work_threshold (cs : Chainstate) (params : Params) : ℕ :=
  let near_tip := match cs.chain.getLast?.bind cs.tree.get with
    | none => 0
    | some tip => tip.chainwork - Work.from_compact tip.header.bits * 144 % 2 ^ 256
  max near_tip params.minimum_chain_work

def is_ancestor_of_best_header_or_tip (cs : Chainstate) (hash : BlockHash) : Bool :=
  match cs.tree.get hash with
  | none => false
  | some node =>
    ((cs.tree.get cs.tree.tip).any fun tip => cs.tree.is_ancestor node tip) || cs.chain[node.height]? == some hash

namespace PeerSync

def new : PeerSync := ⟨[], ∅, ∅, none, [], ∅, 0, 0, none⟩

def request_headers (p : PeerSync) (cs : Chainstate) (at_ : ℕ) : Message × PeerSync :=
  (.GetHeaders cs.tree.locator 0, { p with headers_in_flight := some at_ })

def resume_headers (p : PeerSync) (cs : Chainstate) (at_ : ℕ) : Message × PeerSync :=
  match p.headers_sync with
  | some state => (state.next_headers_request cs, { p with headers_in_flight := some at_ })
  | none => p.request_headers cs at_

structure Accepted where
  added : ℕ
  known : ℕ
  fetchable : List BlockHash

def accept_headers (p : PeerSync) (cs : Chainstate) (acc : Accepted) (now : ℕ) :
    List BlockHeader → Except SyncError Accepted × PeerSync × Chainstate
  | [] => (.ok acc, p, cs)
  | header :: headers =>
    let had_header := cs.tree.contains header.hash
    match cs.accept_header header now with
    | (.error rej, cs) => (.error (.InvalidHeader (.Rejected rej)), p, cs)
    | (.ok _, cs) =>
      let acc : Accepted := if had_header then { acc with known := acc.known + 1 }
        else { acc with added := acc.added + 1, fetchable := acc.fetchable ++ [header.hash] }
      accept_headers { p with headers_applied := p.headers_applied + 1 } cs acc now headers

def next_low_work_request (p : PeerSync) (cs : Chainstate) (state : HeadersSyncState) (request_more : Bool)
    (at_ : ℕ) :
    Option Message × PeerSync :=
  if request_more then (some (state.next_headers_request cs), { p with headers_in_flight := some at_ })
  else (none, p)

def claimed_work (work : ℕ) (headers : List BlockHeader) : ℕ :=
  headers.foldl (fun acc header => (Work.checked_add acc (Work.from_compact header.bits)).getD (2 ^ 256 - 1)) work

def try_low_work_headers_sync (p : PeerSync) (network : Network) (cs : Chainstate) (params : Params)
    (headers : List BlockHeader) (now at_ : ℕ) (salt : List UInt8) : Option HeadersOutcome × PeerSync :=
  match headers.head?.bind fun header => cs.tree.get header.prev_block_hash with
  | none => (none, p)
  | some fork =>
    let total_work := (Work.checked_add fork.chainwork (claimed_work 0 headers)).getD (2 ^ 256 - 1)
    let threshold := anti_dos_work_threshold cs params
    if threshold ≤ total_work then (none, p)
    else if headers.length ≠ MAX_HEADERS_RESULTS then
      (some { HeadersOutcome.default with give_up_leadership := true }, p)
    else
      let state := HeadersSyncState.new cs.tree fork params (.for_network network) threshold now salt
      let (result, state) := state.process_next_headers headers true
      let (continuation, p) := p.next_low_work_request cs state result.request_more at_
      (some { HeadersOutcome.default with continuation, give_up_leadership := state.is_final },
        if state.is_final then p else { p with headers_sync := some state })

def released_outcome (sync_continuation : Option Message) (full_page is_final : Bool) (at_ : ℕ) (acc : Accepted)
    (p : PeerSync) (cs : Chainstate) : HeadersOutcome × PeerSync :=
  let (continuation, p) := if sync_continuation.isNone && full_page then
      (some (p.request_headers cs at_).1, (p.request_headers cs at_).2)
    else (sync_continuation, p)
  (⟨acc.added, acc.known, continuation, acc.fetchable, is_final && continuation.isNone⟩, p)

def continue_low_work_sync (p : PeerSync) (cs : Chainstate) (headers : List BlockHeader) (now at_ : ℕ) :
    Except SyncError HeadersOutcome × PeerSync × Chainstate :=
  match p.headers_sync with
  | none => (.ok .default, p, cs)
  | some state =>
    let p := { p with headers_sync := none }
    let full_page := headers.length == MAX_HEADERS_RESULTS
    let (result, state) := state.process_next_headers headers full_page
    let (sync_continuation, p) := p.next_low_work_request cs state result.request_more at_
    let is_final := state.is_final
    let p := if is_final then p else { p with headers_sync := some state }
    if !result.success then (.ok { HeadersOutcome.default with give_up_leadership := true }, p, cs)
    else
      match p.accept_headers cs ⟨0, 0, []⟩ now result.pow_validated_headers with
      | (.error e, p, cs) => (.error e, p, cs)
      | (.ok acc, p, cs) =>
        let (outcome, p) := released_outcome sync_continuation full_page is_final at_ acc p cs
        (.ok outcome, p, cs)

def page_outcome (headers : List BlockHeader) (at_ : ℕ) (acc : Accepted) (p : PeerSync) (cs : Chainstate) :
    HeadersOutcome × PeerSync :=
  let (continuation, p) := if headers.length = MAX_HEADERS_RESULTS then
      (some (p.request_headers cs at_).1, (p.request_headers cs at_).2)
    else (none, p)
  (⟨acc.added, acc.known, continuation, acc.fetchable, false⟩, p)

def check_headers_pow (params : Params) : List BlockHeader → Except PowError Unit
  | [] => .ok ()
  | header :: headers =>
    match check_proof_of_work header.hash header.bits params with
    | .error e => .error e
    | .ok () => check_headers_pow params headers

def continuous : List BlockHeader → Bool
  | first :: second :: headers => second.prev_block_hash == first.hash && continuous (second :: headers)
  | _ => true

def on_headers (p : PeerSync) (network : Network) (cs : Chainstate) (headers : List BlockHeader) (now : ℕ)
    (allow_low_work : Bool) (at_ : ℕ) (salt : List UInt8) : Except SyncError HeadersOutcome × PeerSync × Chainstate :=
  let p := { p with headers_in_flight := none }
  match headers.head?, headers.getLast? with
  | some first, some last =>
    let params := cs.params
    match check_headers_pow params headers with
    | .error e => (.error (.InvalidHeader (.Work e)), p, cs)
    | .ok () =>
      if !continuous headers then (.error .DiscontinuousHeaders, p, cs)
      else if p.headers_sync.isSome then p.continue_low_work_sync cs headers now at_
      else if !cs.tree.contains first.prev_block_hash then (.error .DiscontinuousHeaders, p, cs)
      else
        let already_known_enough := is_ancestor_of_best_header_or_tip cs last.hash
        if !already_known_enough && !allow_low_work then (.ok .default, p, cs)
        else
          match (if already_known_enough then (none, p)
            else p.try_low_work_headers_sync network cs params headers now at_ salt) with
          | (some outcome, p) => (.ok outcome, p, cs)
          | (none, p) =>
            match p.accept_headers cs ⟨0, 0, []⟩ now headers with
            | (.error e, p, cs) => (.error e, p, cs)
            | (.ok acc, p, cs) =>
              let (outcome, p) := page_outcome headers at_ acc p cs
              (.ok outcome, p, cs)
  | _, _ => (.ok .default, { p with headers_sync := none }, cs)

def clear_in_flight (p : PeerSync) (hash : BlockHash) : Bool × PeerSync :=
  if p.in_flight.any fun slot => slot.1 == hash then
    (true, { p with in_flight := p.in_flight.eraseP fun slot => slot.1 == hash })
  else (false, p)

def release (p : PeerSync) (hash : BlockHash) : Bool × PeerSync :=
  ((p.clear_in_flight hash).1, { (p.clear_in_flight hash).2 with wanted := p.wanted.erase hash })

def free (p : PeerSync) : ℕ := MAX_BLOCKS_IN_TRANSIT_PER_PEER - p.in_flight.length

def on_inv_step (cs : Chainstate) (contains_hash : BlockHash → Bool) (free : ℕ) (acc : PeerSync × List InvVector)
    (inv : InvVector) : PeerSync × List InvVector :=
  let (p, want) := acc
  if !inv.inv_type.is_block && !inv.inv_type.is_tx then acc
  else if inv.inv_type.is_block && cs.have_body inv.hash then acc
  else if inv.inv_type.is_block && decide (inv.hash ∈ p.pending_set) then acc
  else if free ≤ want.length then
    if inv.inv_type.is_block && decide (inv.hash ∉ p.wanted)
        && decide (p.pending_blocks.length < MAX_PENDING_BLOCKS_PER_PEER) && decide (inv.hash ∉ p.pending_set) then
      ({ p with
        pending_set := insert inv.hash p.pending_set
        pending_blocks := p.pending_blocks ++ [inv.hash] }, want)
    else acc
  else if inv.inv_type.is_tx && contains_hash inv.hash then acc
  else if inv.hash ∈ p.wanted then acc
  else
    ({ p with wanted := insert inv.hash p.wanted },
      want ++ [⟨if inv.inv_type.is_block then .WitnessBlock else .WitnessTx, inv.hash⟩])

def request (want : List InvVector) : Option Message := if want.isEmpty then none else some (.GetData want)

def on_inv (p : PeerSync) (cs : Chainstate) (contains_hash : BlockHash → Bool) (invs : List InvVector)
    (global_free at_ : ℕ) : Option Message × PeerSync :=
  let free := min p.free global_free
  let (p, want) := invs.foldl (on_inv_step cs contains_hash free) (p, [])
  (request want, { p with in_flight := p.in_flight ++ want.map fun inv => (inv.hash, at_) })

def want_hash (p : PeerSync) (hash : BlockHash) (at_ : ℕ) : PeerSync :=
  { p with wanted := insert hash p.wanted, in_flight := p.in_flight ++ [(hash, at_)] }

def drain_loop (cs : Chainstate) (free at_ : ℕ) :
    List BlockHash → PeerSync → List InvVector → PeerSync × List InvVector
  | [], p, want => (p, want)
  | hash :: pending, p, want =>
    if want.length < free then
      let p := { p with pending_blocks := pending, pending_set := p.pending_set.erase hash }
      if cs.have_body hash ∨ hash ∈ p.wanted then drain_loop cs free at_ pending p want
      else drain_loop cs free at_ pending (p.want_hash hash at_) (want ++ [⟨.WitnessBlock, hash⟩])
    else (p, want)

def drain_pending (p : PeerSync) (cs : Chainstate) (global_free at_ : ℕ) : Option Message × PeerSync :=
  let free := min p.free global_free
  if free = 0 then (none, p)
  else
    let (p, want) := drain_loop cs free at_ p.pending_blocks p []
    (request want, p)

def want_loop (cs : Chainstate) (exclude : Finset BlockHash) (free at_ : ℕ) :
    List BlockHash → PeerSync → List InvVector → PeerSync × List InvVector
  | [], p, want => (p, want)
  | hash :: hashes, p, want =>
    if free ≤ want.length then (p, want)
    else if cs.have_body hash ∨ hash ∈ exclude ∨ hash ∈ p.wanted then want_loop cs exclude free at_ hashes p want
    else want_loop cs exclude free at_ hashes (p.want_hash hash at_) (want ++ [⟨.WitnessBlock, hash⟩])

def want_blocks_excluding (p : PeerSync) (cs : Chainstate) (hashes : List BlockHash) (exclude : Finset BlockHash)
    (at_ : ℕ) : Option Message × PeerSync :=
  if p.free = 0 then (none, p)
  else
    let (p, want) := want_loop cs exclude p.free at_ hashes p []
    (request want, p)

def want_blocks (p : PeerSync) (cs : Chainstate) (hashes : List BlockHash) (at_ : ℕ) : Option Message × PeerSync :=
  p.want_blocks_excluding cs hashes ∅ at_

def want_advice (p : PeerSync) : List BlockHash → List Message × PeerSync
  | [] => ([], p)
  | hash :: hashes =>
    if hash ∈ p.wanted_advice then p.want_advice hashes
    else
      let (messages, p) := want_advice { p with wanted_advice := insert hash p.wanted_advice } hashes
      (.GetAdvice hash :: messages, p)

def want_one (p : PeerSync) (hash : BlockHash) (at_ : ℕ) : Option Message × PeerSync :=
  if MAX_BLOCKS_IN_TRANSIT_PER_PEER ≤ p.in_flight.length then (none, p)
  else if p.in_flight.any fun slot => slot.1 == hash then (none, p)
  else (some (.GetData [⟨.WitnessBlock, hash⟩]), p.want_hash hash at_)

def block_verdict (p : PeerSync) (was_in_flight : Bool) :
    Except BlockRejection Acceptance → Except SyncError BlockOutcome × PeerSync
  | .ok acceptance =>
    (.ok ⟨some acceptance, was_in_flight⟩, { p with blocks_received := p.blocks_received + 1 })
  | .error (.Header (.UnknownParent _)) => (.ok ⟨none, was_in_flight⟩, p)
  | .error rej => (.error (.InvalidBlock rej), p)

def on_block (p : PeerSync) (cs : Chainstate) (block : Block) (now : ℕ) :
    Except SyncError BlockOutcome × PeerSync × Chainstate :=
  let (was_in_flight, p) := p.release block.block_hash
  let (verdict, cs) := cs.accept_block block now
  ((p.block_verdict was_in_flight verdict).1, (p.block_verdict was_in_flight verdict).2, cs)

def on_block_for_external_validation (p : PeerSync) (block : Block) : BlockOutcome × PeerSync :=
  let hash := block.block_hash
  let (was_in_flight, p) := p.release hash
  (⟨none, was_in_flight⟩, { p with
    pending_set := p.pending_set.erase hash
    pending_blocks := p.pending_blocks.filter fun pending => pending != hash
    blocks_received := p.blocks_received + 1 })

def on_prepared_block (p : PeerSync) (cs : Chainstate) (prepared : PreparedBlock) (now : ℕ) :
    Except SyncError BlockOutcome × PeerSync × Chainstate :=
  let (was_in_flight, p) := p.release prepared.block.block_hash
  let (verdict, cs) := cs.accept_prepared_block prepared now
  ((p.block_verdict was_in_flight verdict).1, (p.block_verdict was_in_flight verdict).2, cs)

def on_tx (p : PeerSync) (txid : Txid) : PeerSync := (p.release txid).2

def on_notfound (p : PeerSync) : List InvVector → List BlockHash × PeerSync
  | [] => ([], p)
  | inv :: invs =>
    let (was_in_flight, p) := p.release inv.hash
    let (released, p) := p.on_notfound invs
    (if was_in_flight then inv.hash :: released else released, p)

def release_older_than (p : PeerSync) (timeout at_ : ℕ) : ℕ × PeerSync :=
  let stale := (p.in_flight.filter fun slot => decide (timeout < at_ - slot.2)).map Prod.fst
  (stale.length, stale.foldl (fun p hash => (p.release hash).2) p)

def release_in_flight (p : PeerSync) : ℕ × PeerSync :=
  (p.in_flight.length,
    { p with in_flight := [], wanted := p.in_flight.foldl (fun wanted slot => wanted.erase slot.1) p.wanted })

end PeerSync

inductive PeerOp [Platform] where
  | request_headers (cs : Chainstate) (at_ : ℕ)
  | resume_headers (cs : Chainstate) (at_ : ℕ)
  | on_headers (network : Network) (cs : Chainstate) (headers : List BlockHeader) (now : ℕ) (allow_low_work : Bool)
      (at_ : ℕ) (salt : List UInt8)
  | on_inv (cs : Chainstate) (contains_hash : BlockHash → Bool) (invs : List InvVector) (global_free at_ : ℕ)
  | drain_pending (cs : Chainstate) (global_free at_ : ℕ)
  | want_blocks (cs : Chainstate) (hashes : List BlockHash) (at_ : ℕ)
  | want_blocks_excluding (cs : Chainstate) (hashes : List BlockHash) (exclude : Finset BlockHash) (at_ : ℕ)
  | want_advice (hashes : List BlockHash)
  | want_one (hash : BlockHash) (at_ : ℕ)
  | on_block (cs : Chainstate) (block : Block) (now : ℕ)
  | on_block_for_external_validation (block : Block)
  | on_prepared_block (cs : Chainstate) (prepared : PreparedBlock) (now : ℕ)
  | on_tx (txid : Txid)
  | on_notfound (invs : List InvVector)
  | release_older_than (timeout at_ : ℕ)
  | release_in_flight

namespace PeerOp

def apply (p : PeerSync) : PeerOp → Option Message × PeerSync
  | request_headers cs at_ => (none, (p.request_headers cs at_).2)
  | resume_headers cs at_ => (none, (p.resume_headers cs at_).2)
  | on_headers network cs headers now allow_low_work at_ salt =>
    (none, (p.on_headers network cs headers now allow_low_work at_ salt).2.1)
  | on_inv cs contains_hash invs global_free at_ => p.on_inv cs contains_hash invs global_free at_
  | drain_pending cs global_free at_ => p.drain_pending cs global_free at_
  | want_blocks cs hashes at_ => p.want_blocks cs hashes at_
  | want_blocks_excluding cs hashes exclude at_ => p.want_blocks_excluding cs hashes exclude at_
  | want_advice hashes => (none, (p.want_advice hashes).2)
  | want_one hash at_ => p.want_one hash at_
  | on_block cs block now => (none, (p.on_block cs block now).2.1)
  | on_block_for_external_validation block => (none, (p.on_block_for_external_validation block).2)
  | on_prepared_block cs prepared now => (none, (p.on_prepared_block cs prepared now).2.1)
  | on_tx txid => (none, p.on_tx txid)
  | on_notfound invs => (none, (p.on_notfound invs).2)
  | release_older_than timeout at_ => (none, (p.release_older_than timeout at_).2)
  | release_in_flight => (none, p.release_in_flight.2)

end PeerOp

namespace PeerSync

inductive Reachable : PeerSync → Prop
  | new : Reachable new
  | step {p : PeerSync} (h : Reachable p) (op : PeerOp) : Reachable (op.apply p).2

end PeerSync

end AvilaNode
