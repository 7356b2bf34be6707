import AvilaNode.Chainstate
import AvilaNode.ClosureWalk
import AvilaNode.ScriptBytes
import Mathlib.Data.Rat.Floor

/-! The transaction pool: its entries, the indexes beside them, and how entries leave. -/

namespace AvilaNode

open Layers

def LIFECYCLE_RING_CAP : ℕ := 4096

def MAX_ORPHANS : ℕ := 100

def ORPHAN_EXPIRE_SECS : ℕ := 20 * 60

structure MempoolEntry where
  tx : Transaction
  fee : ℤ
  vsize : ℕ
  sigops : ℕ
  time : ℕ
  first_seen_height : ℕ
  fee_delta : ℤ
  size : ℕ
  fees_with_descendants : ℤ
  size_with_descendants : ℕ
deriving DecidableEq, Repr

def MempoolEntry.modified_fee (entry : MempoolEntry) : ℤ := saturating_add entry.fee entry.fee_delta

structure ScoreKey where
  fee : ℤ
  size : ℕ
  txid : Txid
deriving DecidableEq, Repr

def ScoreKey.lt (a b : ScoreKey) : Bool :=
  decide (a.fee * b.size < b.fee * a.size)
    || (decide (a.fee * b.size = b.fee * a.size) && decide (a.txid.toNat < b.txid.toNat))

def ScoreKey.insert (key : ScoreKey) : List ScoreKey → List ScoreKey
  | [] => [key]
  | row :: rows =>
    if key.lt row then key :: row :: rows
    else if row.lt key then row :: ScoreKey.insert key rows
    else row :: rows

def ScoreKey.remove (key : ScoreKey) (rows : List ScoreKey) : List ScoreKey :=
  rows.filter fun row => key.lt row || row.lt key

inductive RemovalCause where
  | Confirmed
  | BlockConflict
  | Replaced (by_ : Txid)
  | Evicted
  | Expired
  | ReorgDrop
  | Explicit
deriving DecidableEq, Repr

structure LifecycleEvent where
  txid : Txid
  cause : RemovalCause
  fee : ℤ
  vsize : ℕ
  admitted_at : ℕ
  removed_at : ℕ
  removed_height : ℕ
deriving DecidableEq, Repr

structure OrphanEntry where
  tx : Transaction
  time : ℕ

structure PoolSettings where
  max_entries : ℕ
  max_bytes : ℕ
  min_relay_fee : ℤ
  full_rbf : Bool
  require_standard : Bool
  max_datacarrier_bytes : Option ℕ
  permit_bare_multisig : Bool
  dust_relay_fee : ℤ
  mempool_expiry_secs : ℕ

def PoolSettings.default : PoolSettings where
  max_entries := 25000
  max_bytes := 300000000
  min_relay_fee := 100
  full_rbf := true
  require_standard := true
  max_datacarrier_bytes := some 100000
  permit_bare_multisig := true
  dust_relay_fee := 3000
  mempool_expiry_secs := 336 * 60 * 60

structure Mempool where
  map : Table Txid MempoolEntry
  spends : Table OutPoint Txid
  wtxids : Table Wtxid Txid
  orphans : Table Txid OrphanEntry
  settings : PoolSettings
  pool_bytes : ℕ
  /-- A double is a rational number. -/
  rolling_min_fee : ℚ
  last_rolling_fee_update : ℕ
  block_since_rolling_fee_bump : Bool
  last_expire : ℕ
  score_index : List ScoreKey
  deltas : Table Txid ℤ
  unbroadcast : Finset Txid
  /-- Every removal so far, where the ring keeps the last `LIFECYCLE_RING_CAP`. -/
  lifecycle : List LifecycleEvent

namespace Mempool

def new : Mempool where
  map := ∅
  spends := ∅
  wtxids := ∅
  orphans := ∅
  settings := .default
  pool_bytes := 0
  rolling_min_fee := 0
  last_rolling_fee_update := 0
  block_since_rolling_fee_bump := false
  last_expire := 0
  score_index := []
  deltas := ∅
  unbroadcast := ∅
  lifecycle := []

def len (m : Mempool) : ℕ := m.map.keys.length

def contains (m : Mempool) (txid : Txid) : Bool := (m.map.lookup txid).isSome

def parents (m : Mempool) (tx : Transaction) : List Txid :=
  (tx.inputs.map fun input => input.previous_output.txid).filter m.contains

def parents_of (m : Mempool) (txid : Txid) : List Txid :=
  match m.map.lookup txid with
  | none => []
  | some entry => m.parents entry.tx

def ancestor_fuel (m : Mempool) (tx : Transaction) : ℕ :=
  tx.inputs.length + (m.map.keys.map fun txid => (m.parents_of txid).length).sum

def ancestors_of (m : Mempool) (tx : Transaction) : List Txid :=
  ClosureWalk.walk m.parents_of (m.ancestor_fuel tx) (m.parents tx).reverse []

def children (m : Mempool) (txid : Txid) : List Txid :=
  match m.map.lookup txid with
  | none => []
  | some entry => (List.range entry.tx.outputs.length).filterMap fun vout => m.spends.lookup ⟨txid, vout⟩

def descendant_txids (m : Mempool) (txid : Txid) : List Txid :=
  ClosureWalk.spread m.children (m.spends.keys.length + 1) [txid] []

def descendants_of (m : Mempool) (txid : Txid) : ℕ × ℕ :=
  let descendants := m.descendant_txids txid
  (descendants.length, ((descendants.filterMap m.map.lookup).map MempoolEntry.vsize).sum)

def set_being_replaced (m : Mempool) (conflicts : List Txid) : List Txid :=
  (conflicts.flatMap fun conflict => conflict :: m.descendant_txids conflict).dedup

def cluster_totals (m : Mempool) (txid : Txid) : ℤ × ℕ :=
  match m.map.lookup txid with
  | none => (0, 1)
  | some entry => (entry.fees_with_descendants, entry.size_with_descendants)

def effective_score (entry : MempoolEntry) : ℤ × ℕ :=
  if entry.modified_fee * entry.size_with_descendants < entry.fees_with_descendants * entry.vsize then
    (entry.fees_with_descendants, entry.size_with_descendants)
  else (entry.modified_fee, entry.vsize)

def score_key (txid : Txid) (score : ℤ × ℕ) : ScoreKey := ⟨score.1, score.2, txid⟩

def resync_score_index (m : Mempool) (txid : Txid) (before : Option (ℤ × ℕ)) : Mempool :=
  let rows := match before with
    | none => m.score_index
    | some score => (score_key txid score).remove m.score_index
  { m with
    score_index := match m.map.lookup txid with
      | none => rows
      | some entry => (score_key txid (effective_score entry)).insert rows }

def shift_totals (entry : MempoolEntry) (fee_delta size_delta : ℤ) : MempoolEntry :=
  { entry with
    fees_with_descendants := saturating_add entry.fees_with_descendants fee_delta
    size_with_descendants := (saturating_add entry.size_with_descendants size_delta).toNat }

def adjust_descendant_totals (m : Mempool) (txid : Txid) (fee_delta size_delta : ℤ) : Mempool :=
  match m.map.lookup txid with
  | none => m
  | some entry =>
    resync_score_index { m with map := m.map.insert txid (shift_totals entry fee_delta size_delta) } txid
      (some (effective_score entry))

def adjust_all (m : Mempool) (txids : List Txid) (fee_delta size_delta : ℤ) : Mempool :=
  txids.foldl (fun m txid => m.adjust_descendant_totals txid fee_delta size_delta) m

def worst_by_descendant_score (m : Mempool) : Option ScoreKey := m.score_index.head?

def record_removal (m : Mempool) (txid : Txid) (entry : MempoolEntry) (cause : RemovalCause) (now height : ℕ) :
    Mempool :=
  { m with lifecycle := m.lifecycle ++ [⟨txid, cause, entry.fee, entry.vsize, entry.time, now, height⟩] }

section

variable [Platform]

def unindex (m : Mempool) (txid : Txid) (entry : MempoolEntry) : Mempool :=
  { m with
    map := m.map.erase txid
    unbroadcast := m.unbroadcast.erase txid
    wtxids := m.wtxids.erase (Platform.wtxid entry.tx)
    pool_bytes := m.pool_bytes - entry.size
    spends := eraseAll m.spends (entry.tx.inputs.map TxIn.previous_output)
    score_index := (score_key txid (effective_score entry)).remove m.score_index }

def remove_inner (m : Mempool) (txid : Txid) (cause : RemovalCause) (now height : ℕ) : Mempool :=
  match m.map.lookup txid with
  | none => m
  | some entry =>
    let m := m.unindex txid entry
    (m.adjust_all (m.ancestors_of entry.tx) (-entry.modified_fee) (-entry.vsize)).record_removal txid entry cause now
      height

def remove (m : Mempool) (txid : Txid) : Mempool := m.remove_inner txid .Explicit 0 0

def remove_walk (cause : RemovalCause) (now height : ℕ) : ℕ → Mempool → Txid → Mempool
  | 0, m, _ => m
  | fuel + 1, m, txid =>
    ((m.children txid).foldl (remove_walk cause now height fuel) m).remove_inner txid cause now height

def remove_recursive_inner (m : Mempool) (txid : Txid) (cause : RemovalCause) (now height : ℕ) : Mempool :=
  remove_walk cause now height (m.len + 1) m txid

def remove_recursive (m : Mempool) (txid : Txid) : Mempool := m.remove_recursive_inner txid .Explicit 0 0

def remove_each (m : Mempool) (txids : List Txid) (cause : RemovalCause) (now height : ℕ) : Mempool :=
  txids.foldl (fun m txid => m.remove_recursive_inner txid cause now height) m

def expire (m : Mempool) (now : ℕ) : Mempool :=
  let cutoff := now - m.settings.mempool_expiry_secs
  let stale := ((toList m.map).filter fun row => decide (row.2.time < cutoff)).map Prod.fst
  stale.foldl
    (fun m txid => if m.contains txid then m.remove_recursive_inner txid .Expired now 0 else m) m

def dependents (m : Mempool) (tx : Transaction) : List Txid :=
  (List.range tx.outputs.length).filterMap fun vout => m.spends.lookup ⟨Platform.txid tx, vout⟩

def remove_dependents (m : Mempool) (tx : Transaction) (now height : ℕ) : Mempool :=
  (m.remove_each (m.dependents tx) .ReorgDrop now height).remove_inner (Platform.txid tx) .ReorgDrop now height

def prioritise (m : Mempool) (txid : Txid) (delta : ℤ) : Mempool :=
  let new_delta := saturating_add ((m.deltas.lookup txid).getD 0) delta
  let m := { m with deltas := m.deltas.insert txid new_delta }
  match m.map.lookup txid with
  | none => m
  | some entry =>
    let ancestors := m.ancestors_of entry.tx
    let m := { m with
      map := m.map.insert txid { entry with
        fee_delta := new_delta
        fees_with_descendants := saturating_add entry.fees_with_descendants delta } }
    (m.resync_score_index txid (some (effective_score entry))).adjust_all ancestors delta 0

def mark_unbroadcast (m : Mempool) (txid : Txid) : Mempool := { m with unbroadcast := insert txid m.unbroadcast }

def clear_unbroadcast (m : Mempool) (txid : Txid) : Mempool := { m with unbroadcast := m.unbroadcast.erase txid }

/-- What a transaction of a connected block takes out of the pool: itself, and what spends the same outpoints. -/
def dead_by (m : Mempool) (tx : Transaction) : List (Txid × RemovalCause) :=
  (if m.contains (Platform.txid tx) then [(Platform.txid tx, .Confirmed)] else []) ++
    if tx.is_coinbase then []
    else (tx.inputs.filterMap fun input => m.spends.lookup input.previous_output).map fun txid =>
      (txid, .BlockConflict)

def on_block_connected (m : Mempool) (block : Block) (conf_height : ℕ) : Mempool :=
  let dead := block.transactions.flatMap m.dead_by
  let m := { m with
    block_since_rolling_fee_bump := true
    deltas := eraseAll m.deltas (block.transactions.map Platform.txid) }
  dead.foldl (fun m row => m.remove_recursive_inner row.1 row.2 0 conf_height) m

def expire_orphans (m : Mempool) (now : ℕ) : Mempool :=
  let stale := (toList m.orphans).filter fun row => decide (ORPHAN_EXPIRE_SECS ≤ now - row.2.time)
  { m with orphans := eraseAll m.orphans (stale.map Prod.fst) }

def oldest_orphan : List (Txid × OrphanEntry) → Option (Txid × OrphanEntry)
  | [] => none
  | row :: rows =>
    match oldest_orphan rows with
    | none => some row
    | some best => if best.2.time < row.2.time then some best else some row

def park_orphan (m : Mempool) (tx : Transaction) (now : ℕ) : Mempool :=
  let m := m.expire_orphans now
  let txid := Platform.txid tx
  if (m.orphans.lookup txid).isSome then m
  else
    let orphans := if MAX_ORPHANS ≤ m.orphans.keys.length then
        match oldest_orphan (toList m.orphans) with
        | some (oldest, _) => m.orphans.erase oldest
        | none => m.orphans
      else m.orphans
    { m with orphans := orphans.insert txid ⟨tx, now⟩ }

def drop_orphan (m : Mempool) (txid : Txid) : Mempool := { m with orphans := m.orphans.erase txid }

end

end Mempool

end AvilaNode
