import AvilaNode.CleanCoinCache
import AvilaNode.SortedRun

/-! The layered coins view: dirty map, in-flight flush, overlay base, run epochs, flat mirror,
backend and snapshot file, with the operations that read and write it. -/

namespace AvilaNode

open Layers

inductive ConnectError where
  | UnknownBlock
  | OrphanBlock
  | InputsMissingOrSpent
  | PrematureCoinbaseSpend (depth : ℕ)
  | InputValuesOutOfRange
  | InBelowOut
  | FeeOutOfRange
  | AccumulatedFeeOutOfRange
  | Bip30 (outpoint : OutPoint)
  | SigopsExceeded
  | NotFinal
  | CoinbaseAmount (actual limit : ℤ)
  | ScriptVerify (err : ScriptError)
  | Internal (message : String)
deriving DecidableEq, Repr

structure FlushLayer where
  snap : Delta OutPoint Coin
  delta : ℤ
  bytes : ℕ
  tip : ℕ
  warm : CleanCoinCache

/-- The commit worker: what it was handed, the epoch number in runs mode, and its result
once it has run. -/
structure FlushJob where
  snap : Delta OutPoint Coin
  undos : List UndoRow
  tip : ℕ
  delta : ℤ
  epoch : Option ℕ
  result : Option (Except IoError (Option EpochLayer))

structure UtxoSet where
  map : Delta OutPoint Coin
  base : Option UtxoSet
  backend : Option CoinsBackend
  snapshot : Option (Table OutPoint Coin)
  map_bytes : ℕ
  budget : ℕ
  live_delta : ℤ
  born : Finset OutPoint
  flat : Option (Table OutPoint Coin)
  flushing : Option FlushLayer
  flush_join : Option FlushJob
  runs : List EpochLayer
  runs_seq : ℕ
  runs_dir : Bool
  clean : CleanCoinCache
  warm : CleanCoinCache

namespace UtxoSet

def DEFAULT_CACHE_BUDGET : ℕ := 450 * 1024 * 1024

def DIRTY_FLUSH_ENTRIES : ℕ := 1000000

def new : UtxoSet where
  map := ∅
  base := none
  backend := none
  snapshot := none
  map_bytes := 0
  budget := DEFAULT_CACHE_BUDGET
  live_delta := 0
  born := ∅
  flat := none
  flushing := none
  flush_join := none
  runs := []
  runs_seq := 0
  runs_dir := false
  clean := .default
  warm := .default

def snap_lookup (flushing : Option FlushLayer) (outpoint : OutPoint) : Option (Option Coin) :=
  flushing.bind fun layer => layer.snap.lookup outpoint

def rebuild_flat (s : UtxoSet) : UtxoSet :=
  let snap := match s.snapshot with
    | some run => insertAll ∅ (toList run)
    | none => ∅
  let all := match s.backend with
    | some be => insertAll snap (toList be.coins)
    | none => snap
  { s with flat := some all }

def refresh_flat (s : UtxoSet) : UtxoSet := if s.flat.isSome then s.rebuild_flat else s

def attach_backend (s : UtxoSet) (backend : CoinsBackend) : UtxoSet :=
  refresh_flat { s with backend := some backend, clean := { s.clean with coins := ∅, order := [] } }

def attach_snapshot (s : UtxoSet) (run : Table OutPoint Coin) : UtxoSet :=
  refresh_flat { s with snapshot := some run }

def enable_runs (s : UtxoSet) (found : List EpochLayer) : UtxoSet :=
  { s with
    runs := (s.runs ++ found).insertionSort fun a b => a.tip ≤ b.tip
    runs_seq := found.foldl (fun seq l => max seq (l.seq + 1)) s.runs_seq
    runs_dir := true }

def drop_epochs_above (s : UtxoSet) (tip : ℕ) : UtxoSet :=
  { s with runs := (s.runs.reverse.dropWhile fun l => tip < l.tip).reverse }

def enable_flat (s : UtxoSet) : UtxoSet := s.rebuild_flat

def over_budget (s : UtxoSet) : Bool :=
  s.backend.isSome && decide (s.budget < s.map_bytes + (s.flushing.map FlushLayer.bytes).getD 0)

def needs_flush (s : UtxoSet) : Bool :=
  s.over_budget || (s.backend.isSome && decide (DIRTY_FLUSH_ENTRIES ≤ s.map.entries.length))

variable [Platform]

def clean_get (clean : CleanCoinCache) (outpoint : OutPoint) : Option Coin :=
  if Platform.clean_cache_enabled then clean.get outpoint else none

def backend_get (be : CoinsBackend) (clean : CleanCoinCache) (outpoint : OutPoint)
    (prefetched : Option (Delta OutPoint Coin)) : Option Coin :=
  match clean_get clean outpoint with
  | some coin => some coin
  | none => ((prefetched.bind fun p => p.lookup outpoint).getD (be.get outpoint))

def get_with_prefetched (s : UtxoSet) (outpoint : OutPoint) (prefetched : Option (Delta OutPoint Coin)) :
    Option Coin :=
  match s with
  | { map, base, backend, snapshot, flat, flushing, runs, clean, .. } =>
    match map.lookup outpoint with
    | some entry => entry
    | none =>
      match snap_lookup flushing outpoint with
      | some entry => entry
      | none =>
        match base with
        | some b => get_with_prefetched b outpoint none
        | none =>
          match probe_runs runs outpoint with
          | some hit => hit
          | none =>
            match flat with
            | some f => f.lookup outpoint
            | none =>
              match backend with
              | some be => backend_get be clean outpoint prefetched
              | none =>
                match snapshot with
                | some run => run.lookup outpoint
                | none => none

def get (s : UtxoSet) (outpoint : OutPoint) : Option Coin := s.get_with_prefetched outpoint none

def backend_read_visible (s : UtxoSet) (outpoint : OutPoint) : Bool :=
  !(s.backend.isNone || (s.map.lookup outpoint).isSome || (snap_lookup s.flushing outpoint).isSome
    || s.base.isSome || !s.runs.isEmpty || s.flat.isSome)

def clean_has (s : UtxoSet) (outpoint : OutPoint) : Bool := (clean_get s.clean outpoint).isSome

def prefetch_backend (s : UtxoSet) (outpoints : List OutPoint) : Delta OutPoint Coin :=
  match s.backend with
  | none => ∅
  | some be =>
    insertAll ∅ ((outpoints.filter fun op => s.backend_read_visible op && !s.clean_has op).map
      fun op => (op, be.get op))

def remember (clean : CleanCoinCache) (outpoint : OutPoint) : Option Coin → CleanCoinCache
  | some coin => if Platform.clean_cache_enabled then clean.insert outpoint coin else clean
  | none => clean

def note_read (s : UtxoSet) (outpoint : OutPoint) (prefetched : Option (Delta OutPoint Coin)) : UtxoSet :=
  match s with
  | { map, base, backend, snapshot, map_bytes, budget, live_delta, born, flat, flushing, flush_join,
      runs, runs_seq, runs_dir, clean, warm } =>
    match map.lookup outpoint, snap_lookup flushing outpoint with
    | none, none =>
      match base with
      | some b =>
        { map, base := some (note_read b outpoint none), backend, snapshot, map_bytes, budget,
          live_delta, born, flat, flushing, flush_join, runs, runs_seq, runs_dir, clean, warm }
      | none =>
        match probe_runs runs outpoint, flat, backend with
        | none, none, some be =>
          { map, base, backend, snapshot, map_bytes, budget, live_delta, born, flat, flushing,
            flush_join, runs, runs_seq, runs_dir, warm
            clean := match clean_get clean outpoint with
              | some _ => clean
              | none => remember clean outpoint (backend_get be clean outpoint prefetched) }
        | _, _, _ => s
    | _, _ => s

def have_ (s : UtxoSet) (outpoint : OutPoint) : Bool :=
  match s with
  | { map, base, backend, snapshot, flat, flushing, runs, .. } =>
    match map.lookup outpoint with
    | some entry => entry.isSome
    | none =>
      match snap_lookup flushing outpoint with
      | some entry => entry.isSome
      | none =>
        match base with
        | some b => have_ b outpoint
        | none =>
          match probe_runs runs outpoint with
          | some hit => hit.isSome
          | none =>
            match flat with
            | some f => (f.lookup outpoint).isSome
            | none =>
              (backend.any fun be => be.have_ outpoint)
                || (snapshot.any fun run => (run.lookup outpoint).isSome)

def merge_runs (all : Table OutPoint Coin) : List EpochLayer → Table OutPoint Coin
  | [] => all
  | l :: runs => merge_runs (eraseAll (insertAll all l.run.iter) l.del) runs

def merge_flushing (all : Table OutPoint Coin) : Option FlushLayer → Table OutPoint Coin
  | some layer => applyDelta all layer.snap
  | none => all

def committed_coins (flat : Option (Table OutPoint Coin)) (backend : Option CoinsBackend)
    (snapshot : Option (Table OutPoint Coin)) : Table OutPoint Coin :=
  match flat with
  | some f => f
  | none =>
    let all := match backend with
      | some be => be.coins
      | none => ∅
    -- the snapshot file's records are inserted over the backend's
    match snapshot with
    | some run => insertAll all (toList run)
    | none => all

def merged (s : UtxoSet) : Table OutPoint Coin :=
  match s with
  | { map, base, backend, snapshot, flat, flushing, runs, .. } =>
    let all := committed_coins flat backend snapshot
    let all := match base with
      | some b => insertAll all (toList (merged b))
      | none => all
    applyDelta (merge_flushing (merge_runs all runs) flushing) map

def iter (s : UtxoSet) : List (OutPoint × Coin) := toList s.merged

def lower_get (s : UtxoSet) (outpoint : OutPoint) : Option Coin :=
  match snap_lookup s.flushing outpoint with
  | some entry => entry
  | none =>
    match s.base.bind fun b => b.get outpoint with
    | some c => some c
    | none =>
      match probe_runs s.runs outpoint with
      | some hit => hit
      | none =>
        (s.flat.bind fun f => f.lookup outpoint).or
          ((s.backend.bind fun be => be.get outpoint).or (s.snapshot.bind fun run => run.lookup outpoint))

def lower_live (s : UtxoSet) (outpoint : OutPoint) : Bool :=
  match snap_lookup s.flushing outpoint with
  | some entry => entry.isSome
  | none =>
    if s.base.any fun b => b.have_ outpoint then true
    else
      match probe_runs s.runs outpoint with
      | some hit => hit.isSome
      | none =>
        (s.flat.any fun f => (f.lookup outpoint).isSome) || (s.backend.any fun be => be.have_ outpoint)
          || (s.snapshot.any fun run => (run.lookup outpoint).isSome)

def live (entry : Option Coin) : ℤ := if entry.isSome then 1 else 0

def liveb (b : Bool) : ℤ := if b then 1 else 0

def born_now (s : UtxoSet) (outpoint : OutPoint) (entry : Option Coin) : Bool :=
  entry.isSome && (match s.map.lookup outpoint with
    | some (some _) => false
    | _ => !s.lower_live outpoint)

def put_raw (s : UtxoSet) (outpoint : OutPoint) (entry : Option Coin) : UtxoSet :=
  let warm := s.warm.invalidate outpoint
  let was_live := match s.map.lookup outpoint with
    | some old => old.isSome
    | none => s.lower_live outpoint
  let freed := match s.map.lookup outpoint with
    | some old => entry_bytes old
    | none => 0
  { s with
    clean := s.clean.invalidate outpoint
    warm := match entry with
      | some coin => if s.backend.isSome && Platform.clean_cache_enabled then warm.insert outpoint coin else warm
      | none => warm
    map_bytes := s.map_bytes - freed + entry_bytes entry
    live_delta := s.live_delta + live entry - liveb was_live
    born := if s.born_now outpoint entry then insert outpoint s.born else s.born
    map := s.map.insert outpoint entry }

def put (s : UtxoSet) (outpoint : OutPoint) (entry : Option Coin) : UtxoSet := s.put_raw outpoint entry

def insert_synthetic (s : UtxoSet) (outpoint : OutPoint) (coin : Coin) : UtxoSet :=
  s.put outpoint (some coin)

def spend (s : UtxoSet) (outpoint : OutPoint) : Option Coin × UtxoSet :=
  let cached := if s.backend_read_visible outpoint then (s.clean.take outpoint).1 else none
  let s := { s with clean := s.clean.invalidate outpoint, warm := s.warm.invalidate outpoint }
  match s.map.lookup outpoint with
  | some entry =>
    let s := { s with map_bytes := s.map_bytes - entry_bytes entry }
    match entry with
    | some c =>
      let s := { s with live_delta := s.live_delta - 1 }
      if outpoint ∈ s.born then
        (some c, { s with born := s.born.erase outpoint, map := s.map.erase outpoint })
      else (some c, { s with map := s.map.insert outpoint none })
    | none => (none, s)
  | none =>
    match cached.or (s.lower_get outpoint) with
    | some coin =>
      (some coin,
        { s with
          live_delta := s.live_delta - 1
          map_bytes := s.map_bytes + entry_bytes none
          map := s.map.insert outpoint none })
    | none => (none, s)

def spend_coin (s : UtxoSet) (outpoint : OutPoint) : Option Coin × UtxoSet := s.spend outpoint

def remove_entry (s : UtxoSet) (outpoint : OutPoint) : UtxoSet :=
  let s := { s with clean := s.clean.invalidate outpoint, warm := s.warm.invalidate outpoint }
  let s := match s.map.lookup outpoint with
    | some old =>
      { s with
        map := s.map.erase outpoint
        map_bytes := s.map_bytes - entry_bytes old
        live_delta := s.live_delta - (live old - liveb (s.lower_live outpoint)) }
    | none => s
  let s := { s with born := s.born.erase outpoint }
  if s.lower_live outpoint then s.put_raw outpoint none else s

def OVERWRITE_MESSAGE : String := "non-coinbase tx overwrote an unspent coin past the BIP30 scan"

def add_outputs (txid : Txid) (coinbase : Bool) (height : ℕ) (s : UtxoSet) (undo : TxUndo) :
    ℕ → List TxOut → Except ConnectError Unit × UtxoSet × TxUndo
  | _, [] => (.ok (), s, undo)
  | vout, out :: outs =>
    if is_unspendable out.script_pubkey then add_outputs txid coinbase height s undo (vout + 1) outs
    else
      let outpoint : OutPoint := ⟨txid, vout⟩
      let previous := s.get outpoint
      let s := (s.note_read outpoint none).put outpoint (some ⟨out, height, coinbase⟩)
      match previous with
      | some previous =>
        if coinbase then
          add_outputs txid coinbase height s
            { undo with overwritten := undo.overwritten ++ [(outpoint, previous)] } (vout + 1) outs
        else (.error (.Internal OVERWRITE_MESSAGE), s.put outpoint (some previous), undo)
      | none => add_outputs txid coinbase height s undo (vout + 1) outs

def add_tx_outputs (s : UtxoSet) (tx : Transaction) (height : ℕ) (undo : TxUndo) :
    Except ConnectError Unit × UtxoSet × TxUndo :=
  add_outputs tx.txid tx.is_coinbase height s undo 0 tx.outputs

def overlay (s : UtxoSet) : UtxoSet × UtxoSet :=
  ({ new with base := some s, budget := 2 ^ 64 - 1 }, new)

def put_all (s : UtxoSet) : List (OutPoint × Option Coin) → UtxoSet
  | [] => s
  | (op, entry) :: es => put_all (s.put op entry) es

def unoverlay (s overlay : UtxoSet) (commit : Bool) : UtxoSet :=
  match overlay.base with
  | none => s
  | some base => if commit then base.put_all (toList overlay.map) else base

def run_worker (s : UtxoSet) : UtxoSet :=
  match s.flush_join with
  | none => s
  | some job =>
    match job.result with
    | some _ => s
    | none =>
      match job.epoch with
      | some seq =>
        let epoch := write_epoch seq job.tip job.delta job.snap job.undos
        { s with flush_join := some { job with result := some (.ok (some epoch)) } }
      | none =>
        match s.backend with
        | none => s
        | some be =>
          match be.commit job.snap job.undos job.tip with
          | .ok be =>
            { s with backend := some be, flush_join := some { job with result := some (.ok none) } }
          | .error e => { s with flush_join := some { job with result := some (.error e) } }

def promote (map : Delta OutPoint Coin) (clean : CleanCoinCache) :
    List (OutPoint × CleanCoinEntry) → CleanCoinCache
  | [] => clean
  | (op, entry) :: es =>
    promote map (if (map.lookup op).isSome then clean else clean.insert op entry.coin) es

def promote_warm (s : UtxoSet) (warm : CleanCoinCache) : UtxoSet :=
  if Platform.clean_cache_enabled then
    { s with clean := promote s.map s.clean (toList warm.coins) }
  else s

def join_flush (s : UtxoSet) : Except IoError Unit × UtxoSet :=
  match (s.run_worker).flush_join with
  | none => (.ok (), s)
  | some job =>
    let s := { s.run_worker with flush_join := none }
    match s.flushing with
    | none => (.ok (), s)
    | some layer =>
      let s := { s with flushing := none }
      match job.result with
      | some (.ok (some epoch)) =>
        if s.runs_dir then (.ok (), { s with runs := s.runs ++ [epoch] })
        else (.error (.other "epoch write without runs_dir"), s)
      | some (.ok none) =>
        (.ok (), promote_warm { s with flat := s.flat.map fun f => applyDelta f layer.snap } layer.warm)
      | some (.error e) => (.error e, s)
      | none => (.error (.other "flush worker panicked"), s)

def flush_to_backend_owned (s : UtxoSet) (undos : List UndoRow) (tip : ℕ) :
    Except IoError Unit × UtxoSet :=
  if s.backend.isNone then (.ok (), s)
  else
    match s.join_flush with
    | (.error e, s) => (.error e, s)
    | (.ok (), s) =>
      let layer : FlushLayer := ⟨s.map, s.live_delta, s.map_bytes, tip, s.warm⟩
      let epoch := if s.runs_dir then some s.runs_seq else none
      (.ok (),
        { s with
          map := ∅
          warm := .default
          born := ∅
          live_delta := 0
          map_bytes := 0
          flushing := some layer
          runs_seq := if s.runs_dir then s.runs_seq + 1 else s.runs_seq
          flush_join := some ⟨s.map, undos, tip, s.live_delta, epoch, none⟩ })

def flush_to_backend (s : UtxoSet) (new_undos : List UndoRow) (tip : ℕ) : Except IoError Unit × UtxoSet :=
  if s.backend.isNone then (.ok (), s)
  else
    match s.join_flush with
    | (.error e, s) => (.error e, s)
    | (.ok (), s) => s.flush_to_backend_owned new_undos tip

def epoch_undo (s : UtxoSet) (height : ℕ) : Option BlockUndo :=
  s.runs.reverse.findSome? fun l => l.undo height

def flush_partial_to_backend (s : UtxoSet) : Except IoError Unit × UtxoSet :=
  if s.backend.isNone then (.ok (), s)
  else
    match s.join_flush with
    | (.error e, s) => (.error e, s)
    | (.ok (), s) =>
      match s.backend with
      | none => (.ok (), s)
      | some be =>
        match be.commit_partial s.map with
        | .error e => (.error e, s)
        | .ok be =>
          let s := { s with backend := some be, flat := s.flat.map fun f => applyDelta f s.map }
          -- the map is still full here, so nothing is promoted
          let s := promote_warm { s with warm := .default } s.warm
          (.ok (), { s with map := ∅, map_bytes := 0, live_delta := 0, born := ∅ })

def runs_delta (s : UtxoSet) : ℤ := (s.runs.map EpochLayer.delta).sum

def len (s : UtxoSet) : ℕ :=
  match s with
  | { base, backend, snapshot, live_delta, flushing, runs, .. } =>
    let lower_base := match base with
      | some b => len b
      | none => 0
    let lower := lower_base + (match backend with
      | some be => be.coins_len
      | none => 0) + (match snapshot with
      | some run => run.entries.length
      | none => 0)
    let flushing_delta := match flushing, backend with
      | some l, some be => if be.tip_height < l.tip then l.delta else 0
      | _, _ => 0
    -- `saturating_add_signed`
    (max 0 ((lower : ℤ) + (live_delta + flushing_delta + (runs.map EpochLayer.delta).sum))).toNat

end UtxoSet

end AvilaNode
