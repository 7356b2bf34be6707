import AvilaNode.SnapshotHints
import AvilaNode.SnapshotScan
import AvilaNode.WorkerPool

/-! The hash of a snapshot: in one pass, and in parallel from resume points. -/

namespace AvilaNode.Snapshot

open ByteStrings ByteReader

def SER_CHUNK : ℕ := 4 <<< 20

structure VerifyOut where
  hash : List UInt8
  coins : ℕ
  groups : ℕ
  sparse : List (List UInt8 × ℕ)
  bytes_read : ℕ
deriving DecidableEq, Repr

inductive Msg where
  | Data (v : List UInt8)
  | Mark (off coins : ℕ)
deriving DecidableEq, Repr

structure Parsing where
  r : Region
  prev_bucket : Option ℕ
  ser : List UInt8
  next_mark : ℕ
  msgs : List Msg
deriving DecidableEq, Repr

def or_panic {α : Type} (a : Option α) : Except ScanError α := a.elim (.error .Panic) .ok

def stream_push (every bucket : ℕ) (p : Parsing) (off : ℕ) (g : Group) : Except ScanError Parsing :=
  let p :=
    if p.next_mark ≤ off then
      { p with
        ser := g.ser, msgs := p.msgs ++ [.Data p.ser, .Mark off p.r.coins]
        next_mark := HEADER_LEN + ((off - HEADER_LEN) / every + 1) * every }
    else { p with ser := p.ser ++ g.ser }
  if p.r.last_txid.any fun t => txid_le g.txid t then invalid "txids out of order"
  else do
    let b ← bucket_of off bucket
    let sparse := if some b ≠ p.prev_bucket then p.r.sparse ++ [(g.txid, off)] else p.r.sparse
    let r := { p.r with
      last_txid := some g.txid, sparse := sparse, coins := p.r.coins + g.n, groups := p.r.groups + 1, last_n := g.n }
    let (ser, msgs) := if SER_CHUNK ≤ p.ser.length then ([], p.msgs ++ [.Data p.ser]) else (p.ser, p.msgs)
    pure { p with r := r, prev_bucket := some b, ser := ser, msgs := msgs }

structure Interval where
  first_txid : List UInt8
  last_txid : List UInt8
  last_n : ℕ
  groups : ℕ
  sparse : List (List UInt8 × ℕ)
  read : ℕ
deriving DecidableEq, Repr

structure Replaying where
  iv : Interval
  prev_bucket : Option ℕ
  sha : ShaState
  ser : List UInt8
  coins : ℕ
deriving DecidableEq

def checked_add (a b : ℕ) : Option ℕ := if a + b < 2 ^ 64 then some (a + b) else none

def Hint.genesis : Hint := ⟨HEADER_LEN, 0, .default⟩

def Hint.eq (a b : Hint) : Bool := a.off == b.off && a.coins == b.coins && a.state.eq b.state

section Hashing

variable [ShaKernel]

def finish_hash (state : ShaState) : Option (List UInt8) := state.finalize.map ShaKernel.sha256

def hasher_step (acc : ShaState × List Hint) (m : Msg) : Except ScanError (ShaState × List Hint) :=
  match m with
  | .Data v => do
    let sha ← or_panic (acc.1.update v)
    pure (sha, acc.2)
  | .Mark off coins => pure (acc.1, acc.2 ++ [⟨off, coins, acc.1⟩])

def hasher (msgs : List Msg) : Except ScanError (ShaState × List Hint) :=
  msgs.foldlM hasher_step (.default, [.genesis])

def interval_push (bucket : ℕ) (s : Replaying) (off : ℕ) (g : Group) : Except ScanError Replaying :=
  if s.iv.groups ≠ 0 ∧ txid_le g.txid s.iv.last_txid then invalid "txids out of order"
  else do
    let b ← bucket_of off bucket
    let iv := { s.iv with
      first_txid := if s.iv.groups = 0 then g.txid else s.iv.first_txid, last_txid := g.txid, last_n := g.n,
      groups := s.iv.groups + 1,
      sparse := if some b ≠ s.prev_bucket then s.iv.sparse ++ [(g.txid, off)] else s.iv.sparse }
    let ser := s.ser ++ g.ser
    if SER_CHUNK ≤ ser.length then do
      let sha ← or_panic (s.sha.update ser)
      pure ⟨iv, some b, sha, [], s.coins + g.n⟩
    else pure ⟨iv, some b, s.sha, ser, s.coins + g.n⟩

variable [PublicKeys]

def verify_stream (file : List UInt8) (base_height every bucket : ℕ) : Except ScanError (VerifyOut × Hints) := do
  let hdr ← read_header file
  let every := max every 1
  let next_mark ← or_panic (checked_add HEADER_LEN every)
  let (s, p) ← group_loop file base_height none true (stream_push every bucket) (loop_turns file)
    (Stream.new file.length HEADER_LEN file.length) ⟨empty_region HEADER_LEN, none, [], next_mark, []⟩
  let (sha, hints) ← hasher (p.msgs ++ [.Data p.ser] ++ if HEADER_LEN < s.off then [.Mark s.off p.r.coins] else [])
  check_end hdr file.length s.off p.r.coins p.r.last_n p.r.groups
  let hash ← or_panic (finish_hash sha)
  pure (⟨hash, p.r.coins, p.r.groups, p.r.sparse, s.read⟩, ⟨file.length, hdr, hints⟩)

def verify_interval (file : List UInt8) (a b : Hint) (base_height bucket : ℕ) : Except ScanError Interval := do
  let (s, acc) ← group_loop file base_height (some b.off) false (interval_push bucket) (loop_turns file)
    (Stream.new file.length a.off (align_up b.off))
    ⟨⟨List.replicate 32 0, List.replicate 32 0, 0, 0, [], 0⟩, none, a.state, [], 0⟩
  let sha ← or_panic (acc.sha.update acc.ser)
  if s.off ≠ b.off then invalid "hint offset is not a group boundary"
  else if checked_add a.coins acc.coins ≠ some b.coins then invalid "hint coin count does not match the file"
  else if !sha.eq b.state then invalid "hint state does not match the file"
  else pure { acc.iv with read := s.read }

/-- The intervals by their number. A worker that panics is lost with what it has done. -/
def interval_job (file : List UInt8) (base_height bucket : ℕ) (hs : List Hint) : Job ScanError Interval := fun j =>
  match hs[j]?, hs[j + 1]? with
  | some a, some b =>
    match verify_interval file a b base_height bucket with
    | .error .Panic => none
    | result => some result
  | _, _ => none

structure Gathered where
  groups : ℕ
  sparse : List (List UInt8 × ℕ)
  bytes_read : ℕ
  prev : Option (List UInt8)
  last_n : ℕ
  last_bucket : Option ℕ
deriving DecidableEq, Repr

def gather_interval (bucket : ℕ) (acc : Gathered) (result : Except ScanError Interval) :
    Except ScanError Gathered := do
  let iv ← result
  if acc.prev.any fun t => txid_le iv.first_txid t then invalid "txids out of order"
  else do
    let (sparse, last_bucket) ← iv.sparse.foldlM (keep_sparse bucket) (acc.sparse, acc.last_bucket)
    pure ⟨acc.groups + iv.groups, sparse, acc.bytes_read + iv.read, some iv.last_txid, iv.last_n, last_bucket⟩

def first_error (results : List (ℕ × Except ScanError Interval)) : Option ScanError :=
  results.findSome? fun p =>
    match p.2 with
    | .error e => some e
    | .ok _ => none

def hints_checked (file : List UInt8) (hints : Hints) : Except ScanError (Header × Hint) := do
  let hdr ← read_header file
  if hints.file_len ≠ file.length ∨ hints.header ≠ hdr then invalid "hints are for a different snapshot file"
  else if !(hints.hints.head?.any (·.eq .genesis)) then invalid "first hint must be the empty stream at the header"
  else
    match hints.hints.getLast? with
    | none => invalid "no hints"
    | some last =>
      if last.off ≠ file.length ∨ last.coins ≠ hdr.coins_count then invalid "last hint must be the end of the file"
      else if (hints.hints.zip hints.hints.tail).any fun w =>
        w.2.off ≤ w.1.off then invalid "hint offsets must ascend"
      else pure (hdr, last)

def verify_hinted (file : List UInt8) (hints : Hints) (bucket : ℕ) (done : List (ℕ × Except ScanError Interval)) :
    Except ScanError VerifyOut := do
  let (hdr, last) ← hints_checked file hints
  if done.length ≠ hints.hints.length - 1 then
    .error ((first_error done).getD (.Invalid "interval verification did not complete"))
  else do
    let acc ← ((Pool.in_order done).map Prod.snd).foldlM (gather_interval bucket)
      ⟨0, [], 0, none, 0, none⟩
    check_end hdr file.length last.off last.coins acc.last_n acc.groups
    let hash ← or_panic (finish_hash last.state)
    pure ⟨hash, last.coins, acc.groups, acc.sparse, acc.bytes_read⟩

def HintedResults (file : List UInt8) (threads base_height : ℕ) (hints : Hints) (bucket : ℕ)
    (done : List (ℕ × Except ScanError Interval)) : Prop :=
  Pool.Taken (interval_job file base_height bucket hints.hints) (hints.hints.length - 1) (max threads 1) done

end Hashing

end AvilaNode.Snapshot
