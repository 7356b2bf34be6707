import AvilaNode.SnapshotStream

/-! The scan of a snapshot in regions at once, and the guesses at where its groups begin. -/

namespace AvilaNode.Snapshot

open ByteStrings ByteReader

def RESYNC_GROUPS : ℕ := 8

def GAP_FACTOR : ℕ := 32

def PROBE : ℕ := 32 <<< 10

structure Head where
  start : ℕ
  txid : List UInt8
  len : ℕ
deriving DecidableEq, Repr

/-- `At` is a guess at a boundary, `More` a window that cannot decide. -/
inductive Sync where
  | At (head : Option Head) (boundary : ℕ)
  | More
  | Nothing
deriving DecidableEq, Repr

inductive Tight where
  | Yes
  | HeadOnly
  | No
deriving DecidableEq, Repr

def common (a b : List UInt8) : ℕ := ((a.zip b).takeWhile fun p => p.1 == p.2).length

def key (pre : ℕ) (t : List UInt8) : ℕ := ((t.drop pre).take 16).foldl (fun k b => k * 256 + b.toNat) 0

def tight (chain : List Head) : Tight :=
  match chain with
  | head :: second :: rest =>
    if chain.length < 4 then .Yes
    else
      let pairs := (second :: rest).zip rest
      let pre := min (((pairs.map fun w => common w.1.txid w.2.txid).min?).getD 0) 16
      let gaps := pairs.map fun w => key pre w.2.txid - key pre w.1.txid
      let sorted := gaps.insertionSort (· ≤ ·)
      let limit := min (max (sorted.getD (sorted.length / 2) 0) 1 * GAP_FACTOR) (2 ^ 128 - 1)
      if gaps.any (limit < ·) then .No
      else if head.txid.take pre = second.txid.take pre ∧ key pre second.txid - key pre head.txid ≤ limit then .Yes
      else .HeadOnly
  | _ => .Yes

inductive Followed where
  | Chain (groups : List Head)
  | Refuted
  | More
deriving DecidableEq, Repr

structure ScanOut where
  coins : ℕ
  groups : ℕ
  sparse : List (List UInt8 × ℕ)
  fallbacks : ℕ
  bytes_read : ℕ
deriving DecidableEq, Repr

variable [PublicKeys]

def window_shaped (base_height : ℕ) (same_code : Bool) (window : List UInt8) : Except PErr (Group × ℕ) :=
  (group_shaped true base_height same_code window).map fun found => (found.1, window.length - found.2.length)

/-- The groups of dump shape that follow each other from `p` on, as many as are asked for. -/
def follow (win : List UInt8) (base_height : ℕ) (stop : Option ℕ) (bounds : Option (List UInt8 × List UInt8))
    (same_code : Bool) : ℕ → List Head → ℕ → Option (List UInt8) → Followed
  | 0, chain, _, _ => .Chain chain
  | turns + 1, chain, p, prev =>
    let outside (t : List UInt8) : Bool := prev.any (txid_le t ·) || bounds.any (txid_le ·.2 t)
    if chain ≠ [] ∧ stop = some p then .Chain chain
    else if p + 32 ≤ win.length ∧ outside ((win.drop p).take 32) then .Refuted
    else
      match window_shaped base_height same_code ((win.take (stop.getD win.length)).drop p) with
      | .ok (g, len) =>
        if outside g.txid then .Refuted
        else follow win base_height stop bounds same_code turns (chain ++ [⟨p, g.txid, len⟩]) (p + len) (some g.txid)
      | .error .Short => if stop.isSome then .Refuted else .More
      | .error (.Bad _) => .Refuted

def resync_from (win : List UInt8) (base_height : ℕ) (stop : Option ℕ) (bounds : Option (List UInt8 × List UInt8))
    (same_code : Bool) : ℕ → ℕ → Sync
  | 0, _ =>
    match stop with
    | some e => .At none e
    | none => .Nothing
  | count + 1, c =>
    match follow win base_height stop bounds same_code RESYNC_GROUPS [] c (bounds.map (·.1)) with
    | .Refuted => resync_from win base_height stop bounds same_code count (c + 1)
    | .More => .More
    | .Chain chain =>
      let h := chain.headD ⟨0, [], 0⟩
      match tight chain with
      | .Yes => .At (some h) (h.start + h.len)
      | .HeadOnly => .At none (h.start + h.len)
      | .No => resync_from win base_height stop bounds same_code count (c + 1)

def resync (win : List UInt8) (start base_height : ℕ) (stop : Option ℕ) (bounds : Option (List UInt8 × List UInt8))
    (same_code : Bool) : Sync :=
  let stop := stop.map (min · win.length)
  resync_from win base_height stop bounds same_code (stop.getD win.length - start) start

def read_window (file : List UInt8) (off len : ℕ) : List UInt8 := (file.drop off).take len

def uniform_loop (buf : List UInt8) (base_height : ℕ) : ℕ → ℕ → ℕ → ℕ → Bool
  | 0, _, multi, uniform => 0 < multi && uniform == multi
  | turns + 1, p, multi, uniform =>
    if multi < 2000 then
      match window_group base_height (buf.drop p) with
      | .ok (g, len) =>
        if 1 < g.n then
          let same := (window_shaped base_height true (buf.drop p)).isOk
          uniform_loop buf base_height turns (p + len) (multi + 1) (if same then uniform + 1 else uniform)
        else uniform_loop buf base_height turns (p + len) multi uniform
      | .error _ => 0 < multi && uniform == multi
    else 0 < multi && uniform == multi

def uniform_codes (file : List UInt8) (base_height : ℕ) : Bool :=
  let buf := read_window file HEADER_LEN (1 <<< 20)
  uniform_loop buf base_height (buf.length + 1) 0 0 0

def boundary_loop (file : List UInt8) (start base_height : ℕ) (same_code : Bool) : ℕ → ℕ → Except ScanError ℕ
  | 0, _ => invalid "no group boundary found"
  | turns + 1, len =>
    let win := read_window file start len
    let eof := decide (file.length ≤ start + win.length)
    match resync win 0 base_height (if eof then some win.length else none) none same_code with
    | .At _ k => .ok (start + k)
    | .More =>
      if len < MAX_GROUP then boundary_loop file start base_height same_code turns (len * 4)
      else invalid "no group boundary found"
    | .Nothing => invalid "no group boundary found"

def boundary_near (file : List UInt8) (start base_height : ℕ) (same_code : Bool) : Except ScanError ℕ :=
  boundary_loop file start base_height same_code 6 PROBE

structure Stitch where
  out : ScanOut
  stop : ℕ
  last_txid : Option (List UInt8)
  last_n : ℕ
  last_bucket : Option ℕ
deriving DecidableEq, Repr

def keep_sparse (bucket : ℕ) (acc : List (List UInt8 × ℕ) × Option ℕ) (entry : List UInt8 × ℕ) :
    Except ScanError (List (List UInt8 × ℕ) × Option ℕ) := do
  let b ← bucket_of entry.2 bucket
  pure (if some b ≠ acc.2 then (acc.1 ++ [entry], some b) else acc)

def stitch_region (file : List UInt8) (base_height bucket : ℕ) (st : Stitch) (result : Except ScanError Region × ℕ) :
    Except ScanError Stitch := do
  let again : Except ScanError (Region × ℕ) := do
    let r ← scan_region file st.stop (max result.2 st.stop) base_height bucket
    pure (r, 1)
  let (r, fallbacks) ← match result.1 with
    | .ok r => if r.first = st.stop then pure (r, 0) else again
    | .error _ => again
  if st.last_txid.any fun a => r.first_txid.any fun b => txid_le b a then invalid "txids out of order"
  else do
    let (sparse, last_bucket) ← r.sparse.foldlM (keep_sparse bucket) (st.out.sparse, st.last_bucket)
    pure ⟨⟨st.out.coins + r.coins, st.out.groups + r.groups, sparse, st.out.fallbacks + fallbacks,
        st.out.bytes_read + r.read⟩, r.stop, if 0 < r.groups then r.last_txid else st.last_txid,
      if 0 < r.groups then r.last_n else st.last_n, last_bucket⟩

def region_starts (file_len : ℕ) (found : List (Except ScanError ℕ)) : List ℕ :=
  (found.filterMap Except.toOption).foldl
    (fun starts b => if starts.getLastD HEADER_LEN < b ∧ b < file_len then starts ++ [b] else starts) [HEADER_LEN]

def stitch (file : List UInt8) (base_height bucket : ℕ) (hdr : Header) (found : List (Except ScanError ℕ)) :
    Except ScanError ScanOut := do
  let starts := region_starts file.length found
  let stops := starts.tail ++ [file.length]
  let results := (starts.zip stops).map fun r => scan_region file r.1 r.2 base_height bucket
  let st ← (results.zip stops).foldlM (stitch_region file base_height bucket)
    ⟨⟨0, 0, [], 0, 0⟩, HEADER_LEN, none, 0, none⟩
  check_end hdr file.length st.stop st.out.coins st.last_n st.out.groups
  pure st.out

def split_offsets (file_len threads : ℕ) : List ℕ :=
  let threads := max threads 1
  let per := max ((file_len - HEADER_LEN + (threads - 1)) / threads) 1
  ((List.range (threads - 1)).map fun i => HEADER_LEN + (i + 1) * per).filter (· < file_len)

def candidates (file : List UInt8) (threads base_height : ℕ) : List (Except ScanError ℕ) :=
  (split_offsets file.length threads).map fun x => boundary_near file x base_height (uniform_codes file base_height)

def scan (file : List UInt8) (threads base_height bucket : ℕ) : Except ScanError ScanOut := do
  let hdr ← read_header file
  stitch file base_height bucket hdr (candidates file threads base_height)

def parse_body (file : List UInt8) (base_height bucket : ℕ) : Except ScanError ScanOut := do
  let hdr ← read_header file
  let r ← scan_region file HEADER_LEN file.length base_height bucket
  check_end hdr file.length r.stop r.coins r.last_n r.groups
  pure ⟨r.coins, r.groups, r.sparse, 0, r.read⟩

end AvilaNode.Snapshot
