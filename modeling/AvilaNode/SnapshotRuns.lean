import AvilaNode.CoinFormats
import AvilaNode.SlidingWindow

/-! The coin run over a snapshot file: what writes the file, its sparse index, lookups and iteration. -/

namespace AvilaNode

open ByteStrings CoinCodec CoinFormats EpochFiles SlidingWindow

def SNAPSHOT_MAGIC : List UInt8 := [0x75, 0x74, 0x78, 0x6f, 0xff]

def SNAPSHOT_HEADER : ℕ := 51

def WIN : ℕ := 1 <<< 20

def MARGIN : ℕ := 256

section
variable [PublicKeys]

def write_outputs (group : List (OutPoint × Coin)) : List UInt8 :=
  group.flatMap fun e => write_compact_size e.1.vout ++ write_coin e.2

def write_groups : ℕ → List (OutPoint × Coin) → List UInt8
  | 0, _ => []
  | _ + 1, [] => []
  | fuel + 1, (op, coin) :: coins =>
    let group := (op, coin) :: coins.takeWhile fun e => e.1.txid == op.txid
    op.txid.to_bytes ++ write_compact_size group.length ++ write_outputs group ++
      write_groups fuel (coins.dropWhile fun e => e.1.txid == op.txid)

def write_snapshot (message_start : Vector UInt8 4) (base_hash : BlockHash) (coins_count : ℕ)
    (coins : List (OutPoint × Coin)) : List UInt8 :=
  SNAPSHOT_MAGIC ++ le 2 2 ++ message_start.toList ++ base_hash.to_bytes ++ le 8 coins_count ++
    write_groups coins.length coins

end

def varint_push (v : ℕ) (c : UInt8) : ℕ := (v * 128 + c.toNat % 128) % 2 ^ 64

def payload_len (size_id : ℕ) : ℕ :=
  if size_id ≤ 1 then 20
  else if size_id ≤ 5 then 32
  else size_id - 6

structure SnapshotRun where
  file : List UInt8
  sparse : List (RunKey × ℕ)
  count : ℕ

namespace SnapshotRun

section
variable (file : List UInt8)

def byte_at : Scan UInt8 := do
  let bytes ← read file WIN MARGIN 1
  pure (bytes.headD 0)

def read_le (width : ℕ) : Scan ℕ := do
  let bytes ← read file WIN MARGIN width
  pure (value bytes)

def read_cs : Scan ℕ := do
  let c ← byte_at file
  if c = 0xfd then read_le file 2
  else if c = 0xfe then read_le file 4
  else if c = 0xff then read_le file 8
  else pure c.toNat

def varint_loop : ℕ → ℕ → Scan ℕ
  | 0, _ => StateT.lift none
  | fuel + 1, v => do
    let c ← byte_at file
    if c.toNat < 128 then pure (varint_push v c)
    else varint_loop fuel ((varint_push v c + 1) % 2 ^ 64)

def scan_varint : Scan ℕ := varint_loop file file.length 0

variable [PublicKeys]

def scan_script (size_id : ℕ) : Scan Script := do
  let payload ← (cover file WIN (payload_len size_id) >>= fun _ => view_up_to file (payload_len size_id))
  StateT.lift ((decompress_script size_id payload).map Prod.fst)

def scan_coin (txid : Txid) : Scan (OutPoint × Coin) := do
  let vout ← read_cs file
  let code ← scan_varint file
  let amount ← scan_varint file
  let size_id ← scan_varint file
  let script ← scan_script file size_id
  pure (⟨txid, vout % 2 ^ 32⟩,
    ⟨⟨(BitVec.ofNat 64 (decompress_amount amount)).toInt, script⟩, code / 2 % 2 ^ 32, code % 2 == 1⟩)

def scan_coins (txid : Txid) : ℕ → Scan (List (OutPoint × Coin))
  | 0 => pure []
  | n + 1 => do
    let coin ← scan_coin file txid
    let coins ← scan_coins txid n
    pure (coin :: coins)

def scan_group : Scan (RunKey × List (OutPoint × Coin)) := do
  let bytes ← read file WIN MARGIN 32
  let txid := BitVec.ofNat 256 (value bytes.reverse)
  let cnt ← read_cs file
  let v0 ← peek (read_cs file)
  let coins ← scan_coins file txid cnt
  pure (txid ++ BitVec.ofNat 32 v0, coins)

/-- The index entries and the coins of the groups from the cursor on, until no coin is left; a group of more than
are left panics. Every round takes 33 bytes at least. -/
def scan_groups (stride : ℕ) : ℕ → ℕ → ℕ → Scan (List (RunKey × ℕ) × List (OutPoint × Coin))
  | 0, _, _ => StateT.lift none
  | fuel + 1, coins_left, groups =>
    if coins_left = 0 then pure ([], [])
    else do
      let c ← get
      let group ← scan_group file
      if coins_left < group.2.length then StateT.lift none
      else do
        let rest ← scan_groups stride fuel (coins_left - group.2.length) (groups + 1)
        pure (if groups % stride = 0 then (group.1, c.pos) :: rest.1 else rest.1, group.2 ++ rest.2)

def index_with (stride : UInt32) : Option (SnapshotRun × List (OutPoint × Coin)) :=
  if file.length < SNAPSHOT_HEADER then none
  else if file.take 5 ≠ SNAPSHOT_MAGIC then none
  else
    let coins_left := value ((file.drop 43).take 8)
    (scan_groups file (max stride.toNat 1) (file.length + 1) coins_left 0 ⟨SNAPSHOT_HEADER, SNAPSHOT_HEADER, 0⟩).map
      fun r => (⟨file, r.1.1, r.1.2.length⟩, r.1.2)

def index (stride : UInt32) : Option SnapshotRun := (index_with file stride).map Prod.fst

end

/-- Why a lookup ends without a coin: it answers `None`, or an index is out of range. -/
inductive Stop where
  | miss
  | panic
deriving DecidableEq, Repr

def cs (buf : List UInt8) : Except Stop (ℕ × List UInt8) :=
  match read_count buf with
  | none => .error .panic
  | some found => .ok found

def varint_at : ℕ → List UInt8 → Except Stop (ℕ × List UInt8)
  | _, [] => .error .miss
  | v, c :: buf =>
    if c.toNat < 128 then .ok (varint_push v c, buf)
    else varint_at ((varint_push v c + 1) % 2 ^ 64) buf

def next_group (cur_txid : Txid) (group_left : ℕ) (buf : List UInt8) : Except Stop (Txid × ℕ × List UInt8) :=
  if group_left = 0 then
    if buf.length < 33 then .error .miss
    else do
      let (group_left, rest) ← cs (buf.drop 32)
      if group_left = 0 then .error .miss
      else pure (BitVec.ofNat 256 (value (buf.take 32).reverse), group_left, rest)
  else pure (cur_txid, group_left, buf)

def next_output (buf : List UInt8) : Except Stop (ℕ × List UInt8 × List UInt8) := do
  if buf.length < 4 then .error .miss
  else
    let (vout, body) ← cs buf
    let (_, rest) ← varint_at 0 body
    let (_, rest) ← varint_at 0 rest
    let (size_id, rest) ← varint_at 0 rest
    if rest.length < payload_len size_id then .error .miss
    else
      let after := rest.drop (payload_len size_id)
      pure (vout % 2 ^ 32, body.take (body.length - after.length), after)

section
variable [PublicKeys]

def scan (op : OutPoint) : ℕ → Txid → ℕ → List UInt8 → Except Stop Coin
  | 0, _, _, _ => .error .miss
  | fuel + 1, cur_txid, group_left, buf => do
    let (cur_txid, group_left, buf) ← next_group cur_txid group_left buf
    let (vout, body, after) ← next_output buf
    if cur_txid = op.txid ∧ vout = op.vout then
      match decode_coin body .Compact with
      | none => .error .miss
      | some coin => .ok coin
    else if cur_txid = op.txid ∧ op.vout < vout then .error .miss
    else if op.txid.toNat < cur_txid.toNat then .error .miss
    else scan op fuel cur_txid (group_left - 1) after

def scan_window (op : OutPoint) (buf : List UInt8) : Except Stop Coin :=
  if buf.length < 33 then .error .miss
  else do
    let (group_left, rest) ← cs (buf.drop 32)
    scan op buf.length (BitVec.ofNat 256 (value (buf.take 32).reverse)) group_left rest

def lower_entry (sparse : List (RunKey × ℕ)) (key : RunKey) : Option ℕ :=
  match sparse.countP fun e => decide (e.1.toNat ≤ key.toNat) with
  | 0 => none
  | n + 1 => some n

def get (run : SnapshotRun) (op : OutPoint) : Except Stop Coin :=
  match lower_entry run.sparse (RunFile.outpoint_key op) with
  | none => .error .miss
  | some lo_idx =>
    match run.sparse[lo_idx]? with
    | none => .error .panic
    | some (_, off) =>
      let off_hi := (run.sparse[lo_idx + 1]?.map Prod.snd).getD run.file.length
      if run.file.length < off_hi then .error .miss
      else scan_window op ((run.file.drop off).take (off_hi - off))

end

end SnapshotRun

/-- What `read_coins` refuses, with the coins processed so far. -/
inductive SnapshotError where
  | Truncated (coins_processed : ℕ)
  | CountMismatch
  | BadData (coins_processed height vout : ℕ) (txid : Txid)
  | BadValue (coins_processed : ℕ)
  | LeftOver (coins_count : ℕ)
deriving DecidableEq, Repr

def canonical_le (width least : ℕ) : SliceReader ℕ := fun bytes =>
  match CoinCodec.take width bytes with
  | none => none
  | some (taken, rest) => if value taken < least then none else some (value taken, rest)

def read_compact_size_from : SliceReader ℕ
  | [] => none
  | b :: bytes =>
    if b.toNat < 253 then some (b.toNat, bytes)
    else if b = 253 then canonical_le 2 253 bytes
    else if b = 254 then canonical_le 4 0x10000 bytes
    else canonical_le 8 0x100000000 bytes

section
variable [PublicKeys]

def read_output (base_height : ℕ) (txid : Txid) (coins_processed : ℕ) (bytes : List UInt8) :
    Except SnapshotError ((OutPoint × Coin) × List UInt8) :=
  match read_compact_size_from bytes with
  | none => .error (.Truncated coins_processed)
  | some (vout, bytes) =>
    match read_coin bytes with
    | none => .error (.Truncated coins_processed)
    | some (coin, bytes) =>
      if base_height < coin.height ∨ U32_MAX ≤ vout then .error (.BadData coins_processed coin.height vout txid)
      else if !money_range coin.out.value then .error (.BadValue coins_processed)
      else .ok ((⟨txid, vout % 2 ^ 32⟩, coin), bytes)

def read_outputs (base_height : ℕ) (txid : Txid) :
    ℕ → ℕ → List UInt8 → Except SnapshotError (List (OutPoint × Coin) × List UInt8)
  | 0, _, bytes => .ok ([], bytes)
  | n + 1, coins_processed, bytes => do
    let (coin, bytes) ← read_output base_height txid coins_processed bytes
    let (coins, bytes) ← read_outputs base_height txid n (coins_processed + 1) bytes
    pure (coin :: coins, bytes)

def read_groups (base_height : ℕ) :
    ℕ → ℕ → ℕ → List UInt8 → Except SnapshotError (List (OutPoint × Coin) × List UInt8)
  | 0, _, coins_processed, _ => .error (.Truncated coins_processed)
  | fuel + 1, coins_left, coins_processed, bytes =>
    if coins_left = 0 then .ok ([], bytes)
    else
      match EpochFiles.read_hash bytes with
      | none => .error (.Truncated coins_processed)
      | some (txid, bytes) =>
        match read_compact_size_from bytes with
        | none => .error (.Truncated coins_processed)
        | some (coins_per_txid, bytes) =>
          if coins_left < coins_per_txid then .error .CountMismatch
          else do
            let (coins, bytes) ← read_outputs base_height txid coins_per_txid coins_processed bytes
            let (rest, bytes) ←
              read_groups base_height fuel (coins_left - coins_per_txid) (coins_processed + coins_per_txid) bytes
            pure (coins ++ rest, bytes)

/-- `read_coins`, with the coins that went to the sink of a stream that is accepted. -/
def read_coins (coins_count base_height : ℕ) (bytes : List UInt8) : Except SnapshotError (List (OutPoint × Coin)) :=
    do
  let (coins, extra) ← read_groups base_height (bytes.length + 1) coins_count 0 bytes
  if extra.isEmpty then pure coins else .error (.LeftOver coins_count)

def SnapshotRun.iter (run : SnapshotRun) : Except SnapshotError (List (OutPoint × Coin)) :=
  read_coins run.count U32_MAX (run.file.drop SNAPSHOT_HEADER)

end

end AvilaNode
