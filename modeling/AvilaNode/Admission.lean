import AvilaNode.Mempool

/-! Admission to the pool: the checks, the trim, the replacement, and the orphans that follow. -/

namespace AvilaNode

open Layers

def MAX_STANDARD_TX_WEIGHT : ℕ := 400000

def MAX_STANDARD_TX_SIGOPS_COST : ℕ := MAX_BLOCK_SIGOPS_COST / 5

def MIN_STANDARD_TX_NONWITNESS_SIZE : ℕ := 65

def INCREMENTAL_RELAY_FEE : ℤ := 100

def MAX_REPLACEMENT_CANDIDATES : ℕ := 100

def RBF_SEQUENCE_THRESHOLD : ℕ := 0xfffffffe

def ANCESTOR_LIMIT : ℕ := 25

def ANCESTOR_SIZE_LIMIT_KVB : ℕ := 101

def DESCENDANT_LIMIT : ℕ := 25

def DESCENDANT_SIZE_LIMIT_KVB : ℕ := 101

def MAX_DISCONNECTED_TX_POOL_BYTES : ℕ := 20 * 4000000

def TRUC_VERSION : ℕ := 3

def TRUC_ANCESTOR_LIMIT : ℕ := 2

def TRUC_DESCENDANT_LIMIT : ℕ := 2

def TRUC_MAX_VSIZE : ℕ := 10000

def TRUC_CHILD_MAX_VSIZE : ℕ := 1000

inductive MempoolReject where
  | Consensus (err : TxRuleError)
  | Coinbase
  | AlreadyKnown
  | TooHeavy
  | InputsMissingOrSpent
  | Inputs (err : ConnectError)
  | NotFinal
  | ScriptVerify (err : ScriptError)
  | MinRelayFee
  | Conflict
  | Full
  | PackageLimits
  | SpendsConflict
  | TooManyReplacements
  | TooManySigops
  | NotStandard (reason : String)
  | MempoolMinFeeNotMet
  | TrucViolation (reason : String)
  | PolicyHook
deriving DecidableEq

/-- The standardness rules, the operator's hook and double arithmetic, which the pool only asks. -/
class PoolPolicy where
  is_standard_tx : Transaction → Option ℕ → Bool → ℤ → Except String Unit
  are_inputs_standard : Transaction → List TxOut → Except String Unit
  is_witness_standard : Transaction → List TxOut → Except String Unit
  precheck_ephemeral : Transaction → ℤ → ℤ → ℤ → Except String Unit
  admit_hook : Transaction → Bool
  /-- The double nearest to an `i64`. -/
  to_double : ℤ → ℚ
  /-- `rate / 2^(elapsed / halflife)` in doubles, the halflife halved so many times. -/
  decay : ℚ → ℕ → ℕ → ℚ

def Transaction.weight (tx : Transaction) : ℕ := 3 * tx.size_without_witness + tx.size_with_witness

def virtual_size (weight sigop_cost : ℕ) : ℕ := (max weight (sigop_cost * 20) + 3) / 4

def HeaderTree.tip_height (t : HeaderTree) : ℕ := ((t.get t.tip).map HeaderNode.height).getD 0

structure ParentFacts where
  version : ℕ
  ancestor_count : ℕ
  descendants : List (Txid × ℕ)

inductive TrucOutcome where
  | Ok
  | Reject (reason : String)
  | ConsiderSiblingEviction (reason : String) (sibling : Txid)

def single_truc_checks (version vsize : ℕ) (parents : List ParentFacts) (direct_conflicts : List Txid) :
    TrucOutcome :=
  if version ≠ TRUC_VERSION ∧ parents.any fun parent => parent.version == TRUC_VERSION then
    .Reject "non-version=3 tx cannot spend from version=3 tx"
  else if version = TRUC_VERSION ∧ parents.any fun parent => parent.version != TRUC_VERSION then
    .Reject "version=3 tx cannot spend from non-version=3 tx"
  else if version ≠ TRUC_VERSION then .Ok
  else if TRUC_MAX_VSIZE < vsize then .Reject "version=3 tx is too big"
  else if TRUC_ANCESTOR_LIMIT < parents.length + 1 then .Reject "tx would have too many ancestors"
  else
    match parents.head? with
    | none => .Ok
    | some parent =>
      if TRUC_ANCESTOR_LIMIT < parent.ancestor_count + 1 then .Reject "tx would have too many ancestors"
      else if TRUC_CHILD_MAX_VSIZE < vsize then .Reject "version=3 child tx is too big"
      else
        let child_will_be_replaced := parent.descendants.any fun descendant => direct_conflicts.contains descendant.1
        if TRUC_DESCENDANT_LIMIT < parent.descendants.length + 2 && !child_will_be_replaced then
          match parent.descendants with
          | [(sibling, sibling_ancestor_count)] =>
            if sibling_ancestor_count = TRUC_ANCESTOR_LIMIT then
              .ConsiderSiblingEviction "tx would exceed descendant count limit" sibling
            else .Reject "tx would exceed descendant count limit"
          | _ => .Reject "tx would exceed descendant count limit"
        else .Ok

def signals_rbf (tx : Transaction) : Bool := tx.inputs.any fun input =>
    decide (input.sequence < RBF_SEQUENCE_THRESHOLD)

structure Candidate where
  spent : List Coin
  conflicts : List Txid
  ancestors : List Txid
  vsize : ℕ
  sigops : ℕ
  fee : ℤ
  modified_fee : ℤ
  next_height : ℕ

def require (ok : Bool) (reject : MempoolReject) : Except MempoolReject Unit := if ok then .ok () else .error reject

def standard (verdict : Except String Unit) : Except MempoolReject Unit := verdict.mapError .NotStandard

def round_half_away (q : ℚ) : ℤ := if 0 ≤ q then ⌊q + 1 / 2⌋ else ⌈q - 1 / 2⌉

namespace Mempool

def higher_rate (high : Option (ℤ × ℕ)) (removed : ℤ × ℕ) : ℤ × ℕ :=
  match high with
  | none => removed
  | some high => if high.1 * removed.2 < removed.1 * high.2 then removed else high

section

variable [PoolPolicy]

def rolling_rate_now (m : Mempool) (now : ℕ) : ℚ :=
  if !m.block_since_rolling_fee_bump || decide (m.rolling_min_fee ≤ 0) then m.rolling_min_fee
  else
    let halvings := if m.pool_bytes < m.settings.max_bytes / 4 then 2
      else if m.pool_bytes < m.settings.max_bytes / 2 then 1 else 0
    let decayed := PoolPolicy.decay m.rolling_min_fee (now - m.last_rolling_fee_update) halvings
    if decayed < INCREMENTAL_RELAY_FEE / 2 then 0 else decayed

def min_mempool_fee (m : Mempool) (now : ℕ) : ℤ :=
  if !m.block_since_rolling_fee_bump || decide (m.rolling_min_fee ≤ 0) then round_half_away m.rolling_min_fee
  else
    let rate := m.rolling_rate_now now
    if rate ≤ 0 then 0 else max (round_half_away rate) INCREMENTAL_RELAY_FEE

def raise_rolling_fee (m : Mempool) (removed_high : Option (ℤ × ℕ)) (now : ℕ) : Mempool :=
  match removed_high with
  | none => m
  | some (removed_fee, removed_size) =>
    let bumped := saturating_add (Int.tdiv (removed_fee * 1000) (max removed_size 1 : ℕ)) INCREMENTAL_RELAY_FEE
    if m.rolling_rate_now now < PoolPolicy.to_double bumped then
      { m with
        rolling_min_fee := PoolPolicy.to_double bumped
        last_rolling_fee_update := now
        block_since_rolling_fee_bump := false }
    else m

end

section

variable [Platform]

def resolve (m : Mempool) (cs : Chainstate) (op : OutPoint) : Option Coin :=
  match cs.utxo.get op with
  | some coin => some coin
  | none =>
    (m.map.lookup op.txid).bind fun parent =>
      parent.tx.outputs[op.vout]?.map fun out => ⟨out, cs.tree.tip_height, false⟩

def resolve_inputs (m : Mempool) (cs : Chainstate) : List TxIn → Option (List Coin)
  | [] => some []
  | input :: inputs =>
    match m.resolve cs input.previous_output with
    | none => none
    | some coin => (m.resolve_inputs cs inputs).map (coin :: ·)

def note_conflict (m : Mempool) (conflicts : List Txid) (input : TxIn) : List Txid :=
  match m.spends.lookup input.previous_output with
  | none => conflicts
  | some conflict => if conflict ∈ conflicts then conflicts else conflicts ++ [conflict]

def direct_conflicts (m : Mempool) (tx : Transaction) : List Txid := tx.inputs.foldl m.note_conflict []

def standard_script_flags (cs : Chainstate) (next_height : ℕ) (tip : BlockHash) : ScriptFlags :=
  block_script_flags cs.params next_height tip ||| Interpreter.STRICTENC ||| Interpreter.LOW_S
    ||| Interpreter.MINIMALDATA ||| NULLDUMMY ||| Interpreter.CLEANSTACK ||| Interpreter.MINIMALIF
    ||| Interpreter.NULLFAIL ||| Interpreter.CONST_SCRIPTCODE ||| Interpreter.WITNESS_PUBKEYTYPE
    ||| Interpreter.DISCOURAGE_UPGRADABLE_NOPS ||| Interpreter.DISCOURAGE_UPGRADABLE_WITNESS_PROGRAM
    ||| Interpreter.DISCOURAGE_UPGRADABLE_TAPROOT_VERSION

def real_sigop_cost (m : Mempool) (cs : Chainstate) (tx : Transaction) (flags : ScriptFlags) : ℕ :=
  legacy_sig_op_count tx * WITNESS_SCALE_FACTOR
    + (tx.inputs.map fun input =>
        match m.resolve cs input.previous_output with
        | none => 0
        | some coin =>
          let spk := coin.out.script_pubkey
          (if is_p2sh spk then Platform.p2sh_sig_ops spk input.script_sig * WITNESS_SCALE_FACTOR else 0)
            + Platform.count_witness_sig_ops input.script_sig spk input.witness flags).sum

def direct_parents (m : Mempool) (tx : Transaction) : List Txid :=
  tx.inputs.foldl
    (fun ids input =>
      let pid := input.previous_output.txid
      if m.contains pid && !ids.contains pid then ids ++ [pid] else ids) []

def parent_facts (m : Mempool) (pid : Txid) : Option ParentFacts :=
  (m.map.lookup pid).map fun parent =>
    { version := parent.tx.version
      ancestor_count := (m.ancestors_of parent.tx).length + 1
      descendants := (m.descendant_txids pid).filterMap fun did =>
        (m.map.lookup did).map fun d => (did, (m.ancestors_of d.tx).length + 1) }

def truc_conflicts (m : Mempool) (tx : Transaction) (vsize : ℕ) (conflicts : List Txid) :
    Except MempoolReject (List Txid) :=
  match single_truc_checks tx.version vsize ((m.direct_parents tx).filterMap m.parent_facts) conflicts with
  | .Ok => .ok conflicts
  | .Reject reason => .error (.TrucViolation reason)
  | .ConsiderSiblingEviction _ sibling => .ok (if sibling ∈ conflicts then conflicts else conflicts ++ [sibling])

def check_replacement (m : Mempool) (ancestors conflicts : List Txid) : Except MempoolReject Unit :=
  if conflicts.isEmpty then .ok ()
  else
    let replaced := m.set_being_replaced conflicts
    if ancestors.any fun ancestor => replaced.contains ancestor then .error .SpendsConflict
    else if MAX_REPLACEMENT_CANDIDATES < replaced.length then .error .TooManyReplacements
    else .ok ()

def check_package (m : Mempool) (ancestors : List Txid) (vsize : ℕ) : Except MempoolReject Unit :=
  if ANCESTOR_LIMIT < ancestors.length + 1 then .error .PackageLimits
  else if ANCESTOR_SIZE_LIMIT_KVB * 1000
      < ((ancestors.filterMap m.map.lookup).map MempoolEntry.vsize).sum + vsize then .error .PackageLimits
  else if ancestors.any fun ancestor => decide (DESCENDANT_LIMIT < (m.descendants_of ancestor).1 + 1)
      || decide (DESCENDANT_SIZE_LIMIT_KVB * 1000 < (m.descendants_of ancestor).2 + vsize) then .error .PackageLimits
  else .ok ()

def overlay (tx : Transaction) (spent : List Coin) : UtxoSet :=
  (tx.inputs.zip spent).foldl (fun utxo row => utxo.insert_synthetic row.1.previous_output row.2) UtxoSet.new

def check_fee (tx : Transaction) (spent : List Coin) (next_height : ℕ) : Except MempoolReject ℤ :=
  match (check_tx_inputs_using tx (overlay tx spent) next_height none).1 with
  | .error e => .error (.Inputs e)
  | .ok (_, fee) => .ok fee

def conflict_fees (m : Mempool) (conflicts : List Txid) : ℤ :=
  ((conflicts.filterMap m.map.lookup).map MempoolEntry.fee).sum

def incremental_fee (vsize : ℕ) : ℤ := INCREMENTAL_RELAY_FEE * vsize / 1000

def check_bump (m : Mempool) (conflicts : List Txid) (fee : ℤ) (vsize : ℕ) : Except MempoolReject Unit :=
  if conflicts.isEmpty then .ok ()
  else if fee < m.conflict_fees conflicts + incremental_fee vsize then .error .Conflict
  else .ok ()

def check_locks (cs : Chainstate) (tx : Transaction) (spent : List Coin) (next_height : ℕ) :
    Except MempoolReject Unit :=
  if cs.params.csv_height ≤ next_height then
    match cs.tree.median_time_past cs.connected with
    | none => .error .NotFinal
    | some parent_mtp =>
      if bip68_locks_satisfied tx spent next_height parent_mtp cs.tree cs.connected then .ok () else .error .NotFinal
  else .ok ()

def check_scripts (tx : Transaction) (spent : List Coin) (flags : ScriptFlags) : Except MempoolReject Unit :=
  match Platform.check_input_scripts tx (spent.map Coin.out) flags with
  | none => .ok ()
  | some e => .error (.ScriptVerify e)

variable [PoolPolicy]

def check_alone (m : Mempool) (tx : Transaction) : Except MempoolReject Unit :=
  match check_transaction tx with
  | .error e => .error (.Consensus e)
  | .ok () =>
    if tx.is_coinbase then .error .Coinbase
    else if m.contains (Platform.txid tx) then .error .AlreadyKnown
    else if MAX_STANDARD_TX_WEIGHT < tx.weight then .error .TooHeavy
    else if m.settings.require_standard then do
      standard (PoolPolicy.is_standard_tx tx m.settings.max_datacarrier_bytes m.settings.permit_bare_multisig
        m.settings.dust_relay_fee)
      require (decide (MIN_STANDARD_TX_NONWITNESS_SIZE ≤ tx.size_without_witness)) (.NotStandard "tx-size-small")
    else .ok ()

def check_standard_inputs (m : Mempool) (tx : Transaction) (spent : List Coin) : Except MempoolReject Unit :=
  if m.settings.require_standard then do
    standard (PoolPolicy.are_inputs_standard tx (spent.map Coin.out))
    if tx.has_witness then standard (PoolPolicy.is_witness_standard tx (spent.map Coin.out)) else .ok ()
  else .ok ()

def check_signalling (m : Mempool) (tx : Transaction) (conflicts : List Txid) : Except MempoolReject Unit :=
  require (conflicts.isEmpty || m.settings.full_rbf
    || (conflicts.all fun id => (m.map.lookup id).any fun entry => signals_rbf entry.tx) && signals_rbf tx) .Conflict

def check_ephemeral (m : Mempool) (tx : Transaction) (fee modified_fee : ℤ) : Except MempoolReject Unit :=
  if m.settings.require_standard then
    standard (PoolPolicy.precheck_ephemeral tx m.settings.dust_relay_fee fee modified_fee)
  else .ok ()

def examine (m : Mempool) (tx : Transaction) (cs : Chainstate) (now : ℕ) : Except MempoolReject Candidate := do
  m.check_alone tx
  match m.resolve_inputs cs tx.inputs with
  | none => .error .InputsMissingOrSpent
  | some spent =>
    m.check_standard_inputs tx spent
    let next_height := cs.tree.tip_height + 1
    let flags := standard_script_flags cs next_height cs.connected
    let sigops := m.real_sigop_cost cs tx flags
    require (decide (sigops ≤ MAX_STANDARD_TX_SIGOPS_COST)) .TooManySigops
    let vsize := virtual_size tx.weight sigops
    m.check_signalling tx (m.direct_conflicts tx)
    let ancestors := m.ancestors_of tx
    let conflicts ← m.truc_conflicts tx vsize (m.direct_conflicts tx)
    m.check_replacement ancestors conflicts
    m.check_package ancestors vsize
    let fee ← check_fee tx spent next_height
    let modified_fee := saturating_add fee ((m.deltas.lookup (Platform.txid tx)).getD 0)
    m.check_ephemeral tx fee modified_fee
    m.check_bump conflicts fee vsize
    check_locks cs tx spent next_height
    check_scripts tx spent flags
    require (decide (m.settings.min_relay_fee * vsize ≤ fee * 1000)) .MinRelayFee
    require (decide (m.min_mempool_fee now * vsize ≤ modified_fee * 1000)) .MempoolMinFeeNotMet
    .ok { spent, conflicts, ancestors, vsize, sigops, fee, modified_fee, next_height }

def crowded (m : Mempool) (tx_size : ℕ) : Bool :=
  decide (m.settings.max_entries ≤ m.len) || decide (m.settings.max_bytes < m.pool_bytes + tx_size)

def outbids (c : Candidate) (row : ScoreKey) : Bool := decide (row.fee * c.vsize < c.fee * row.size)

/-- The trim: each round takes an entry at least, so their number bounds the rounds. `none` is a trim that gave up. -/
def trim (c : Candidate) (tx_size now : ℕ) :
    ℕ → Option (ℤ × ℕ) → Mempool → Option (Option (ℤ × ℕ)) × Mempool
  | 0, _, m => (none, m)
  | rounds + 1, removed_high, m =>
    if m.crowded tx_size then
      match m.worst_by_descendant_score with
      | none => (none, m)
      | some worst =>
        if outbids c worst then
          trim c tx_size now rounds (some (higher_rate removed_high (m.cluster_totals worst.txid)))
            (m.remove_recursive_inner worst.txid .Evicted now c.next_height)
        else (none, m)
    else (some removed_high, m)

def entry_of (m : Mempool) (tx : Transaction) (cs : Chainstate) (c : Candidate) (now : ℕ) : MempoolEntry where
  tx := tx
  fee := c.fee
  vsize := c.vsize
  sigops := c.sigops
  time := now
  first_seen_height := cs.tree.tip_height
  fee_delta := (m.deltas.lookup (Platform.txid tx)).getD 0
  size := tx.encode.length
  fees_with_descendants := c.modified_fee
  size_with_descendants := c.vsize

def index (m : Mempool) (txid : Txid) (entry : MempoolEntry) : Mempool :=
  { m with
    map := m.map.insert txid entry
    spends := insertAll m.spends (entry.tx.inputs.map fun input => (input.previous_output, txid))
    wtxids := m.wtxids.insert (Platform.wtxid entry.tx) txid
    pool_bytes := m.pool_bytes + entry.size }

def totals (m : Mempool) (txids : List Txid) : ℤ × ℤ :=
  (txids.filterMap m.map.lookup).foldl
    (fun sums entry => (saturating_add sums.1 entry.modified_fee, saturating_add sums.2 entry.vsize)) (0, 0)

def count_existing (m : Mempool) (txid : Txid) (outputs : ℕ) (ancestors : List Txid) : Mempool :=
  if (List.range outputs).any fun vout => (m.spends.lookup ⟨txid, vout⟩).isSome then
    let extra := m.totals (m.descendant_txids txid)
    (m.adjust_descendant_totals txid extra.1 extra.2).adjust_all ancestors extra.1 extra.2
  else m

def pool_entry (m : Mempool) (tx : Transaction) (cs : Chainstate) (c : Candidate) (now : ℕ) : Mempool :=
  let txid := Platform.txid tx
  let m := (m.index txid (m.entry_of tx cs c now)).resync_score_index txid none
  (m.adjust_all c.ancestors c.modified_fee c.vsize).count_existing txid tx.outputs.length c.ancestors

def sweep (m : Mempool) (now : ℕ) : Mempool :=
  if 60 ≤ now - m.last_expire then expire { m with last_expire := now } now else m

def enter (m : Mempool) (tx : Transaction) (cs : Chainstate) (c : Candidate) (now : ℕ) :
    Except MempoolReject Txid × Mempool :=
  match m.trim c tx.encode.length now (m.len + 1) none with
  | (none, m) => (.error .Full, m)
  | (some removed_high, m) =>
    let m := m.raise_rolling_fee removed_high now
    let m := m.remove_each c.conflicts (.Replaced (Platform.txid tx)) now c.next_height
    (.ok (Platform.txid tx), m.pool_entry tx cs c now)

def accept_one (m : Mempool) (tx : Transaction) (cs : Chainstate) (now : ℕ) : Except MempoolReject Txid × Mempool :=
  if PoolPolicy.admit_hook tx then
    let m := m.sweep now
    match m.examine tx cs now with
    | .error .InputsMissingOrSpent => (.error .InputsMissingOrSpent, m.park_orphan tx now)
    | .error e => (.error e, m)
    | .ok c => m.enter tx cs c now
  else (.error .PolicyHook, m)

def ready (m : Mempool) (cs : Chainstate) : List Transaction :=
  ((toList m.orphans).map fun row => row.2.tx).filter fun tx =>
    tx.inputs.all fun input => (m.resolve cs input.previous_output).isSome

/-- Each ready orphan leaves the orphans for a new admission; `after` is what follows one that succeeds. -/
def admit_orphans (cs : Chainstate) (now : ℕ) (after : Mempool → Mempool) : List Transaction → Mempool → Mempool
  | [], m => m
  | orphan :: orphans, m =>
    match (m.drop_orphan (Platform.txid orphan)).accept_one orphan cs now with
    | (.ok _, m) => admit_orphans cs now after orphans (after m)
    | (.error _, m) => admit_orphans cs now after orphans m

def unorphan (cs : Chainstate) (now : ℕ) : ℕ → Mempool → Mempool
  | 0, m => m
  | rounds + 1, m =>
    let ready := m.ready cs
    if ready.isEmpty then m else unorphan cs now rounds (admit_orphans cs now (unorphan cs now rounds) ready m)

def accept_tx (m : Mempool) (tx : Transaction) (cs : Chainstate) (now : ℕ) : Except MempoolReject Txid × Mempool :=
  match m.accept_one tx cs now with
  | (.ok txid, m) => (.ok txid, unorphan cs now m.orphans.keys.length m)
  | (.error e, m) => (.error e, m)

def readd (cs : Chainstate) (now : ℕ) (p : ℕ × Mempool) (tx : Transaction) : ℕ × Mempool :=
  if tx.is_coinbase then p
  else
    match p.2.accept_tx tx cs now with
    | (.ok _, m) => (p.1 + 1, m)
    | (.error _, m) => (p.1, (m.drop_orphan (Platform.txid tx)).remove_dependents tx now cs.tree.tip_height)

def reinsert_disconnected (m : Mempool) (block : Block) (cs : Chainstate) (now : ℕ) : ℕ × Mempool :=
  block.transactions.foldl (readd cs now) (0, m)

def queue_disconnected (cs : Chainstate) : ℕ → List BlockHash → List Block
  | _, [] => []
  | bytes, hash :: hashes =>
    match cs.body hash with
    | none => queue_disconnected cs bytes hashes
    | some block =>
      let size := (block.transactions.map fun tx => tx.encode.length).sum
      if MAX_DISCONNECTED_TX_POOL_BYTES < bytes + size then []
      else block :: queue_disconnected cs (bytes + size) hashes

def refill_from_disconnected (m : Mempool) (disconnected : List BlockHash) (cs : Chainstate) (now : ℕ)
    (fork_first : Bool) (max_blocks : ℕ) : ℕ × Mempool :=
  let queued := queue_disconnected cs 0 (disconnected.take max_blocks)
  (if fork_first then queued.reverse else queued).foldl
    (fun p block =>
      let q := p.2.reinsert_disconnected block cs now
      (p.1 + q.1, q.2)) (0, m)

end

end Mempool

section

attribute [local instance] Platform.sample

@[reducible] def PoolPolicy.sample : PoolPolicy where
  is_standard_tx _ _ _ _ := .ok ()
  are_inputs_standard _ _ := .ok ()
  is_witness_standard _ _ := .ok ()
  precheck_ephemeral _ _ _ _ := .ok ()
  admit_hook _ := true
  to_double value := value
  decay rate _ _ := rate

def sample_chain (coins : ℕ) : Chainstate :=
  { Chainstate.new sample_params with
    utxo := (List.range coins).foldl
      (fun utxo i => utxo.put ⟨BitVec.ofNat 256 (1000 + i), 0⟩ (some ⟨⟨1000000, []⟩, 0, false⟩)) UtxoSet.new }

def sample_tx (name : ℕ) (spends : List (ℕ × ℕ)) (values : List ℤ) : Transaction where
  version := 2
  inputs := spends.map fun op => ⟨⟨BitVec.ofNat 256 op.1, op.2⟩, [], 0xffffffff, []⟩
  outputs := values.map fun value => ⟨value, [0, 0, 0, 0, 0, 0, 0, 0]⟩
  lock_time := name

end

end AvilaNode
