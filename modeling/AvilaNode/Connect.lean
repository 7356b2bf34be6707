import AvilaNode.BlockChecks
import AvilaNode.HeaderTree
import AvilaNode.LayerStacks

/-! Connecting a block to the coins and disconnecting it again. -/

namespace AvilaNode

open Layers

def COINBASE_MATURITY : ℕ := 100

def BIP34_IMPLIES_BIP30_LIMIT : ℕ := 1983702

def BIP30_REPEAT_BLOCKS : List (ℕ × BlockHash) :=
  [(91842, 0xeccae000e3c8e4e093936360431f3b7603c563c1ff6181390a4d0a0000000000#256),
    (91880, 0x21d77ccb4c08386a04ac0196ae10f6a1d2c2a377558ca190f143070000000000#256)]

def SEQUENCE_LOCKTIME_DISABLE_FLAG : ℕ := 1 <<< 31

def SEQUENCE_LOCKTIME_TYPE_FLAG : ℕ := 1 <<< 22

def SEQUENCE_LOCKTIME_MASK : ℕ := 0xffff

def SEQUENCE_LOCKTIME_GRANULARITY : ℕ := 9

def SEQUENCE_LOCKS_MIN_VERSION : ℕ := 2

def MAX_PREFETCH_PREVOUTS : ℕ := 16384

/-- `scripts_verified` is the verified-script cache of the running node. -/
structure ConnectContext where
  params : Params
  tree : HeaderTree
  block_hash : BlockHash
  script_checks : Bool
  script_pool : Bool
  scripts_verified : Wtxid → ScriptFlags → Bool

/-- What a call does: it returns, fails, or stops on an overflow check. -/
inductive Verdict (α : Type) where
  | ok (value : α)
  | err (error : ConnectError)
  | panicked
deriving DecidableEq

structure QueuedCheck where
  tx : Transaction
  outs : List TxOut
  flags : ScriptFlags

structure BlockReceipt where
  height : ℕ
  hash : BlockHash
  script_flags : ScriptFlags
  txs : ℕ
  sigops : ℕ
  fees : ℤ
  checks_enabled : Bool
  script_checks : ℕ
  verified_hits : ℕ
  spent_coins : ℕ
  created_coins : ℕ
deriving DecidableEq, Repr

structure AppliedTx where
  index : ℕ
  undo : TxUndo
deriving DecidableEq, Repr

def is_bip30_repeat (height : ℕ) (hash : BlockHash) : Bool :=
  BIP30_REPEAT_BLOCKS.any fun r => r.1 == height && r.2 == hash

def check_coins (spend_height : ℕ) : ℤ → List Coin → Except ConnectError ℤ
  | value_in, [] => .ok value_in
  | value_in, coin :: coins =>
    let depth := spend_height - coin.height
    if coin.coinbase ∧ depth < COINBASE_MATURITY then .error (.PrematureCoinbaseSpend depth)
    else
      match checked_add value_in coin.out.value with
      | none => .error .InputValuesOutOfRange
      | some total =>
        if !money_range coin.out.value || !money_range total then .error .InputValuesOutOfRange
        else check_coins spend_height total coins

def check_values (tx : Transaction) (spend_height : ℕ) (spent : List Coin) : Except ConnectError ℤ :=
  match check_coins spend_height 0 spent with
  | .error e => .error e
  | .ok value_in =>
    match checked_sum 0 (tx.outputs.map TxOut.value) with
    | none => .error (.Internal "output total overflowed i64 past CheckTransaction")
    | some value_out =>
      if value_in < value_out then .error .InBelowOut
      else if !money_range (value_in - value_out) then .error .FeeOutOfRange
      else .ok (value_in - value_out)

section

variable [Platform]

def enforce_bip30 (height : ℕ) (hash : BlockHash) (ctx : ConnectContext) : Bool :=
  if BIP34_IMPLIES_BIP30_LIMIT ≤ height then true
  else if is_bip30_repeat height hash then false
  else
    match ctx.params.bip34_hash with
    | none => true
    | some bip34_hash =>
      match ctx.tree.get ctx.block_hash with
      | none => true
      | some node =>
        match ctx.tree.get_ancestor node.header.prev_block_hash ctx.params.bip34_height with
        | some ancestor => ancestor.hash != bip34_hash
        | none => true

def block_prefetch_candidates (block : Block) (utxo : UtxoSet) (limit : ℕ) : List OutPoint :=
  let same_block_txids := block.transactions.map Transaction.txid
  let inputs := (block.transactions.filter fun tx => !tx.is_coinbase).flatMap fun tx =>
    tx.inputs.map TxIn.previous_output
  ((inputs.filter fun op =>
    !same_block_txids.contains op.txid && utxo.backend_read_visible op).reverse.dedup.reverse).take
    limit

def prefetch (block : Block) (utxo : UtxoSet) : Delta OutPoint Coin :=
  if Platform.prevout_prefetch_workers = 0 ∨ utxo.backend = none then ∅
  else utxo.prefetch_backend (block_prefetch_candidates block utxo MAX_PREFETCH_PREVOUTS)

def resolve_inputs (prefetched : Option (Delta OutPoint Coin)) : List TxIn → UtxoSet → Option (List Coin) × UtxoSet
  | [], utxo => (some [], utxo)
  | input :: inputs, utxo =>
    let found := utxo.get_with_prefetched input.previous_output prefetched
    let utxo := utxo.note_read input.previous_output prefetched
    match found with
    | none => (none, utxo)
    | some coin =>
      match resolve_inputs prefetched inputs utxo with
      | (some coins, utxo) => (some (coin :: coins), utxo)
      | (none, utxo) => (none, utxo)

def check_tx_inputs_using (tx : Transaction) (utxo : UtxoSet) (spend_height : ℕ)
    (prefetched : Option (Delta OutPoint Coin)) : Except ConnectError (List Coin × ℤ) × UtxoSet :=
  match resolve_inputs prefetched tx.inputs utxo with
  | (none, utxo) => (.error .InputsMissingOrSpent, utxo)
  | (some spent, utxo) =>
    match check_values tx spend_height spent with
    | .error e => (.error e, utxo)
    | .ok fee => (.ok (spent, fee), utxo)

/-- The last invalid height and time of the inputs' relative locks; `none` when a coin's own
ancestor is missing. -/
def lock_points (tree : HeaderTree) (tip : BlockHash) :
    ℤ × ℤ → List (TxIn × Coin) → Option (ℤ × ℤ)
  | mins, [] => some mins
  | (min_height, min_time), (input, coin) :: rest =>
    if input.sequence &&& SEQUENCE_LOCKTIME_DISABLE_FLAG ≠ 0 then
      lock_points tree tip (min_height, min_time) rest
    else if input.sequence &&& SEQUENCE_LOCKTIME_TYPE_FLAG ≠ 0 then
      match (tree.get_ancestor tip (coin.height - 1)).bind fun node => tree.median_time_past node.hash with
      | none => none
      | some coin_time =>
        let lock : ℤ := ((input.sequence &&& SEQUENCE_LOCKTIME_MASK) <<< SEQUENCE_LOCKTIME_GRANULARITY : ℕ)
        lock_points tree tip (min_height, max min_time (coin_time + lock - 1)) rest
    else
      let lock : ℤ := (input.sequence &&& SEQUENCE_LOCKTIME_MASK : ℕ)
      lock_points tree tip (max min_height (coin.height + lock - 1), min_time) rest

def bip68_locks_satisfied (tx : Transaction) (spent : List Coin) (height parent_mtp : ℕ) (tree : HeaderTree)
    (tip : BlockHash) : Bool :=
  if tx.version < SEQUENCE_LOCKS_MIN_VERSION then true
  else
    match lock_points tree tip (-1, -1) (tx.inputs.zip spent) with
    | none => false
    | some (min_height, min_time) => decide (min_height < height) && decide (min_time < parent_mtp)

def tx_sigop_cost (tx : Transaction) (spent : List Coin) (flags : ScriptFlags) : ℕ :=
  let legacy := legacy_sig_op_count tx * WITNESS_SCALE_FACTOR
  if tx.is_coinbase then legacy
  else
    let p2sh := if flags &&& P2SH ≠ 0 then
        (((spent.zip tx.inputs).filter fun p => is_p2sh p.1.out.script_pubkey).map fun p =>
          Platform.p2sh_sig_ops p.1.out.script_pubkey p.2.script_sig).sum * WITNESS_SCALE_FACTOR
      else 0
    let witness := ((tx.inputs.zip spent).map fun p =>
      Platform.count_witness_sig_ops p.1.script_sig p.2.out.script_pubkey p.1.witness flags).sum
    legacy + p2sh + witness

structure Applying where
  utxo : UtxoSet
  applied : List AppliedTx
  fees : ℤ
  sigops_cost : ℕ
  jobs : List QueuedCheck
  spent_coins : ℕ
  created_coins : ℕ

structure ApplyEnv where
  ctx : ConnectContext
  height : ℕ
  parent_mtp : ℕ
  flags : ScriptFlags
  prefetched : Delta OutPoint Coin

def spend_inputs : List (TxIn × Coin) → UtxoSet → UtxoSet
  | [], utxo => utxo
  | (input, _) :: rest, utxo => spend_inputs rest (utxo.spend input.previous_output).2

def check_spends (env : ApplyEnv) (tx : Transaction) (utxo : UtxoSet) (fees : ℤ) :
    Except ConnectError (List Coin × ℤ) × UtxoSet :=
  match check_tx_inputs_using tx utxo env.height (some env.prefetched) with
  | (.error e, utxo) => (.error e, utxo)
  | (.ok (spent, fee), utxo) =>
    match (checked_add fees fee).filter fun total => money_range total with
    | none => (.error .AccumulatedFeeOutOfRange, utxo)
    | some total =>
      if env.ctx.params.csv_height ≤ env.height ∧
          !bip68_locks_satisfied tx spent env.height env.parent_mtp env.ctx.tree env.ctx.block_hash then
        (.error .NotFinal, utxo)
      else (.ok (spent, total), utxo)

def check_tx (env : ApplyEnv) (tx : Transaction) (utxo : UtxoSet) (fees : ℤ) :
    Except ConnectError (List Coin × ℤ) × UtxoSet :=
  if tx.is_coinbase then (.ok ([], fees), utxo) else check_spends env tx utxo fees

def queued_check (env : ApplyEnv) (tx : Transaction) (spent : List Coin) : List QueuedCheck :=
  if !tx.is_coinbase && env.ctx.script_checks && !env.ctx.scripts_verified tx.wtxid env.flags then
    [⟨tx, spent.map Coin.out, env.flags⟩]
  else []

def spendable_outputs (tx : Transaction) : List TxOut :=
  tx.outputs.filter fun o => !is_unspendable o.script_pubkey

def apply_tx (env : ApplyEnv) (index : ℕ) (tx : Transaction) (st : Applying) :
    Except ConnectError Unit × Applying :=
  match check_tx env tx st.utxo st.fees with
  | (.error e, utxo) => (.error e, { st with utxo })
  | (.ok (spent, fees), utxo) =>
    let sigops_cost := min (st.sigops_cost + tx_sigop_cost tx spent env.flags) (2 ^ 64 - 1)
    if MAX_BLOCK_SIGOPS_COST < sigops_cost then (.error .SigopsExceeded, { st with utxo, fees, sigops_cost })
    else
      let jobs := st.jobs ++ queued_check env tx spent
      let utxo := spend_inputs (tx.inputs.zip spent) utxo
      let spends := (tx.inputs.zip spent).map Prod.snd
      match utxo.add_tx_outputs tx env.height ⟨spends, []⟩ with
      | (.error e, utxo, _) => (.error e, { st with utxo, fees, sigops_cost, jobs })
      | (.ok (), utxo, undo) =>
        (.ok (),
          { utxo, fees, sigops_cost, jobs
            applied := st.applied ++ [⟨index, undo⟩]
            spent_coins := st.spent_coins + spent.length
            created_coins := st.created_coins + (spendable_outputs tx).length })

def apply_txs (env : ApplyEnv) : ℕ → List Transaction → Applying → Except ConnectError Unit × Applying
  | _, [], st => (.ok (), st)
  | index, tx :: txs, st =>
    match apply_tx env index tx st with
    | (.error e, st) => (.error e, st)
    | (.ok (), st) => apply_txs env (index + 1) txs st

def remove_outputs (txid : Txid) : ℕ → List TxOut → UtxoSet → UtxoSet
  | _, [], utxo => utxo
  | vout, out :: outs, utxo =>
    if is_unspendable out.script_pubkey then remove_outputs txid (vout + 1) outs utxo
    else remove_outputs txid (vout + 1) outs (utxo.remove_entry ⟨txid, vout⟩)

def put_coins : List (OutPoint × Coin) → UtxoSet → UtxoSet
  | [], utxo => utxo
  | (outpoint, coin) :: rest, utxo => put_coins rest (utxo.put outpoint (some coin))

def unapply_tx (tx : Transaction) (undo : TxUndo) (utxo : UtxoSet) : UtxoSet :=
  put_coins ((tx.inputs.zip undo.spent).map fun p => (p.1.previous_output, p.2))
    (put_coins undo.overwritten (remove_outputs tx.txid 0 tx.outputs utxo))

def rollback (block : Block) (utxo : UtxoSet) (applied : List AppliedTx) : UtxoSet :=
  applied.foldr (fun a utxo =>
    match block.transactions[a.index]? with
    | some tx => unapply_tx tx a.undo utxo
    | none => utxo) utxo

inductive DisconnectError where
  | Inconsistent
deriving DecidableEq, Repr

def disconnect_txs : List (Transaction × TxUndo) → UtxoSet → UtxoSet
  | [], utxo => utxo
  | (tx, undo) :: rest, utxo => unapply_tx tx undo (disconnect_txs rest utxo)

def disconnect_block (block : Block) (utxo : UtxoSet) (undo : BlockUndo) :
    Except DisconnectError Unit × UtxoSet :=
  if undo.txs.length ≠ block.transactions.length then (.error .Inconsistent, utxo)
  else (.ok (), disconnect_txs (block.transactions.zip undo.txs) utxo)

def bip30_outpoints (block : Block) : List OutPoint :=
  block.transactions.flatMap fun tx => (List.range tx.outputs.length).map fun vout => ⟨tx.txid, vout⟩

def bip30_scan (block : Block) (utxo : UtxoSet) (ctx : ConnectContext) (height : ℕ) : Option OutPoint :=
  if enforce_bip30 height ctx.block_hash ctx then (bip30_outpoints block).find? utxo.have_ else none

def run_script_checks : List QueuedCheck → Except ScriptError Unit
  | [] => .ok ()
  | job :: jobs =>
    match Platform.check_input_scripts job.tx job.outs job.flags with
    | some e => .error e
    | none => run_script_checks jobs

def finish_block (env : ApplyEnv) (block : Block) (st : Applying) : Verdict (Option (List QueuedCheck)) :=
  match block.transactions.head? with
  | none => .err (.Internal "empty block reached connect_block")
  | some coinbase =>
    match checked_sum 0 (coinbase.outputs.map TxOut.value) with
    | none => .panicked
    | some coinbase_out =>
      let reward := saturating_add st.fees (block_subsidy env.height env.ctx.params)
      if reward < coinbase_out then .err (.CoinbaseAmount coinbase_out reward)
      else if env.ctx.script_pool then .ok (some st.jobs)
      else
        match run_script_checks st.jobs with
        | .error e => .err (.ScriptVerify e)
        | .ok () => .ok none

def receipt (env : ApplyEnv) (block : Block) (st : Applying) : BlockReceipt where
  height := env.height
  hash := env.ctx.block_hash
  script_flags := env.flags
  txs := block.transactions.length
  sigops := st.sigops_cost
  fees := st.fees
  checks_enabled := env.ctx.script_checks
  script_checks := st.jobs.length
  verified_hits := if env.ctx.script_checks then block.transactions.length - 1 - st.jobs.length else 0
  spent_coins := st.spent_coins
  created_coins := st.created_coins

def start_applying (utxo : UtxoSet) : Applying := ⟨utxo, [], 0, 0, [], 0, 0⟩

def block_position (ctx : ConnectContext) : Except ConnectError (ℕ × ℕ) :=
  match ctx.tree.get ctx.block_hash with
  | none => .error .UnknownBlock
  | some node =>
    if (ctx.tree.get node.header.prev_block_hash).isNone then .error .OrphanBlock
    else
      match ctx.tree.median_time_past node.header.prev_block_hash with
      | none => .error (.Internal "parent in tree without an MTP")
      | some parent_mtp => .ok (node.height, parent_mtp)

def apply_env (block : Block) (utxo : UtxoSet) (ctx : ConnectContext) (height parent_mtp : ℕ) : ApplyEnv :=
  ⟨ctx, height, parent_mtp, block_script_flags ctx.params height ctx.block_hash, prefetch block utxo⟩

abbrev Connected := BlockUndo × Option (List QueuedCheck) × BlockReceipt

def connect_block_inner (block : Block) (utxo : UtxoSet) (ctx : ConnectContext) : Verdict Connected × UtxoSet :=
  match block_position ctx with
  | .error e => (.err e, utxo)
  | .ok (height, parent_mtp) =>
    match bip30_scan block utxo ctx height with
    | some outpoint => (.err (.Bip30 outpoint), utxo)
    | none =>
      let env := apply_env block utxo ctx height parent_mtp
      match apply_txs env 0 block.transactions (start_applying utxo) with
      | (.error e, st) => (.err e, rollback block st.utxo st.applied)
      | (.ok (), st) =>
        match finish_block env block st with
        | .panicked => (.panicked, st.utxo)
        | .err e => (.err e, rollback block st.utxo st.applied)
        | .ok pending => (.ok (⟨st.applied.map AppliedTx.undo⟩, pending, receipt env block st), st.utxo)

def connect_block (block : Block) (utxo : UtxoSet) (ctx : ConnectContext) : Verdict BlockUndo × UtxoSet :=
  match connect_block_inner block utxo ctx with
  | (.panicked, utxo) => (.panicked, utxo)
  | (.err e, utxo) => (.err e, utxo)
  | (.ok (undo, none, _), utxo) => (.ok undo, utxo)
  | (.ok (undo, some jobs, _), utxo) =>
    -- the deferred checks: a failure undoes the whole block
    match run_script_checks jobs with
    | .ok () => (.ok undo, utxo)
    | .error e => (.err (.ScriptVerify e), (disconnect_block block utxo undo).2)

end

end AvilaNode
