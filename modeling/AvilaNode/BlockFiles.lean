import AvilaNode.BlockCodec
import AvilaNode.Layers
import AvilaNode.RecordLog

/-! The block files: frames appended to numbered files, and the index read back from them. -/

namespace AvilaNode.BlockFiles

open ByteReader ByteStrings Layers

def MAX_BLOCK_SERIALIZED_SIZE : ℕ := 4000000

def FRAME_HEADER : ℕ := 8

abbrev Dir := List (ℕ × List UInt8)

namespace Dir

def get (dir : Dir) (no : ℕ) : Option (List UInt8) := List.lookup no dir

def append (dir : Dir) (no : ℕ) (bytes : List UInt8) : Dir :=
  dir.map fun file => if file.1 = no then (no, file.2 ++ bytes) else file

def set_len (dir : Dir) (no len : ℕ) : Dir := dir.map fun file => if file.1 = no then (no, file.2.take len) else file

def create (dir : Dir) (no : ℕ) : Dir :=
  if (dir.get no).isSome then dir else dir.filter (fun file => file.1 < no) ++ (no, []) :: dir.filter fun file =>
    no < file.1

def remove (dir : Dir) (no : ℕ) : Dir := dir.filter fun file => file.1 ≠ no

end Dir

inductive IoError where
  | InvalidData (message : String)
  | NotFound (message : String)
  | UnexpectedEof
  | Device
deriving DecidableEq, Repr

structure BlockPos where
  file : ℕ
  offset : ℕ
  len : ℕ
deriving DecidableEq, Repr

structure BlockStore where
  magic : Vector UInt8 4
  index : Table BlockHash BlockPos
  tail_no : ℕ
  tail_len : ℕ
  tail : ℕ
  max_file_size : ℕ
  pruned_through : Option ℕ

def decode (bytes : List UInt8) : Option Block :=
  if MAX_BLOCK_SERIALIZED_SIZE < bytes.length then none
  else
    match Block.read bytes with
    | .ok (block, []) => some block
    | _ => none

def frame (magic : Vector UInt8 4) (block : Block) : List UInt8 :=
  magic.toList ++ le 4 block.encode.length ++ block.encode

def read_frame (magic : Vector UInt8 4) (bytes : List UInt8) : Option ((Block × ℕ) × List UInt8) :=
  if bytes.length < FRAME_HEADER ∨ bytes.take 4 ≠ magic.toList then none
  else
    let len := value ((bytes.drop 4).take 4)
    if len = 0 ∨ MAX_BLOCK_SERIALIZED_SIZE < len ∨ bytes.length < FRAME_HEADER + len then none
    else
      (decode ((bytes.drop FRAME_HEADER).take len)).map fun block => ((block, len), bytes.drop (FRAME_HEADER + len))

section

variable [Platform]

def index_frame (no : ℕ) (state : ℕ × Table BlockHash BlockPos) (record : Block × ℕ) : ℕ × Table BlockHash BlockPos :=
  (state.1 + (FRAME_HEADER + record.2),
    state.2.insert (Platform.block_hash record.1.header) ⟨no, state.1 + FRAME_HEADER, record.2⟩)

def scan_file (magic : Vector UInt8 4) (no : ℕ) (bytes : List UInt8) (is_tail : Bool)
    (index : Table BlockHash BlockPos) :
    Except IoError (ℕ × Table BlockHash BlockPos) :=
  let scanned := RecordLog.scan (read_frame magic) (index_frame no) bytes.length (0, index) bytes
  if scanned.1.1 < bytes.length ∧ !is_tail then .error (.InvalidData "corrupt frame (non-tail file)")
  else .ok scanned.1

def scan_files (magic : Vector UInt8 4) : Dir → ℕ × ℕ × Table BlockHash BlockPos →
    Except IoError (ℕ × ℕ × Table BlockHash BlockPos)
  | [], scanned => .ok scanned
  | (no, bytes) :: files, scanned => do
    let r ← scan_file magic no bytes files.isEmpty scanned.2.2
    scan_files magic files (no, r.1, r.2)

def open_with_limit (dir : Dir) (magic : Vector UInt8 4) (max_file_size : ℕ) : Except IoError (Dir × BlockStore) :=
  match dir with
  | [] => .ok (Dir.create [] 0, ⟨magic, ∅, 0, 0, 0, max_file_size, none⟩)
  | (first, bytes) :: _ =>
    if 4 ≤ bytes.length ∧ bytes.take 4 ≠ magic.toList then
      .error (.InvalidData "block store magic does not match this network")
    else do
      let (tail_no, tail_len, index) ← scan_files magic dir (0, 0, ∅)
      let pruned_through := if first = 0 then none else some (first - 1)
      pure (dir.set_len tail_no tail_len, ⟨magic, index, tail_no, tail_len, tail_no, max_file_size, pruned_through⟩)

end

def read_raw_position (dir : Dir) (magic : Vector UInt8 4) (pos : BlockPos) : Except IoError Block :=
  if pos.offset < FRAME_HEADER ∨ pos.len = 0 ∨ MAX_BLOCK_SERIALIZED_SIZE < pos.len then
    .error (.InvalidData "invalid block position")
  else
    match dir.get pos.file with
    | none => .error (.NotFound "no such file")
    | some bytes =>
      let rest := bytes.drop (pos.offset - FRAME_HEADER)
      if rest.length < FRAME_HEADER then .error .UnexpectedEof
      else if rest.take 4 ≠ magic.toList ∨ value ((rest.drop 4).take 4) ≠ pos.len then
        .error (.InvalidData "block frame header changed since indexing")
      else if rest.length < FRAME_HEADER + pos.len then .error .UnexpectedEof
      else
        match decode ((rest.drop FRAME_HEADER).take pos.len) with
        | none => .error (.InvalidData "block decode")
        | some block => .ok block

/-- What the device does to an append: all of it, only its first bytes, or no new file to append to. -/
inductive Device where
  | done
  | torn (written : ℕ)
  | no_file
deriving DecidableEq, Repr

namespace BlockStore

def is_pruned (store : BlockStore) (pos : BlockPos) : Bool :=
  match store.pruned_through with
  | none => false
  | some through => decide (pos.file ≤ through)

def read (store : BlockStore) (dir : Dir) (pos : BlockPos) : Except IoError Block :=
  if store.is_pruned pos then .error (.NotFound "block body pruned") else read_raw_position dir store.magic pos

def write_frame [Platform] (store : BlockStore) (dir : Dir) (block : Block) (device : Device) :
    Except IoError BlockPos × Dir × BlockStore :=
  let bytes := frame store.magic block
  match device with
  | .torn written => (.error .Device, dir.append store.tail (bytes.take (min written (bytes.length - 1))), store)
  | _ =>
    let pos : BlockPos := ⟨store.tail_no, store.tail_len + FRAME_HEADER, block.encode.length % 2 ^ 32⟩
    (.ok pos, dir.append store.tail bytes,
      { store with
        tail_len := store.tail_len + (FRAME_HEADER + block.encode.length)
        index := store.index.insert (Platform.block_hash block.header) pos })

def append [Platform] (store : BlockStore) (dir : Dir) (block : Block) (device : Device) :
    Except IoError BlockPos × Dir × BlockStore :=
  match (store.index.lookup (Platform.block_hash block.header)).filter fun pos => !store.is_pruned pos with
  | some pos => (.ok pos, dir, store)
  | none =>
    let frame_len := FRAME_HEADER + block.encode.length
    if 0 < store.tail_len ∧ store.max_file_size < store.tail_len + frame_len then
      let store := { store with tail_no := store.tail_no + 1, tail_len := 0 }
      if device = .no_file then (.error .Device, dir, store)
      else { store with tail := store.tail_no }.write_frame (dir.create store.tail_no) block device
    else store.write_frame dir block device

def prune_files (tail_no floor keep : ℕ) : List (ℕ × ℕ) → ℕ → Dir × Option ℕ × ℕ → Dir × Option ℕ × ℕ
  | [], _, state => state
  | (file, size) :: files, total, (dir, pruned_through, deleted) =>
    if tail_no ≤ file ∨ floor ≤ file ∨ total ≤ keep then (dir, pruned_through, deleted)
    else prune_files tail_no floor keep files (total - size) (dir.remove file, some file, deleted + 1)

def prune_to_bytes (store : BlockStore) (dir : Dir) (keep floor : ℕ) : ℕ × Dir × BlockStore :=
  let files := dir.map fun file => (file.1, file.2.length)
  let total := (files.map Prod.snd).foldl (· + ·) 0
  let r := prune_files store.tail_no floor keep files total (dir, store.pruned_through, 0)
  (r.2.2, r.1, { store with pruned_through := r.2.1 })

end BlockStore

end AvilaNode.BlockFiles
