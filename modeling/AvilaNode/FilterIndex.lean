import AvilaNode.Gcs
import AvilaNode.Layers
import AvilaNode.RecordLog

/-! The block filter index, its log of connected blocks, and the backfill a restart runs. -/

namespace AvilaNode

open ByteReader ByteStrings Decoder Layers

abbrev FilterEntry := BlockHash × List UInt8 × Hash256

structure FilterIndex where
  by_height : Table ℕ FilterEntry
  by_hash : Table BlockHash (List UInt8 × Hash256)
  last_header : Hash256
  -- opened to append: a write goes to the end
  log : Option (List UInt8)

namespace FilterIndex

def MAGIC : List UInt8 := [0x63, 0x66, 0x6c, 0x74, 0x01, 0x00, 0x00, 0x00]

def empty : FilterIndex := ⟨∅, ∅, 0, none⟩

def demote (idx : FilterIndex) (height : ℕ) : FilterIndex :=
  match idx.by_height.lookup height with
  | none => idx
  | some old => { idx with
      by_height := idx.by_height.erase height
      by_hash := idx.by_hash.insert old.1 old.2 }

def insert (idx : FilterIndex) (height : ℕ) (entry : FilterEntry) : FilterIndex :=
  let idx := idx.demote height
  { idx with
    by_height := idx.by_height.insert height entry
    last_header := entry.2.2 }

def header_at (idx : FilterIndex) (height : ℕ) : Hash256 :=
  match idx.by_height.lookup height with
  | none => 0
  | some entry => entry.2.2

def header_below (idx : FilterIndex) : ℕ → Hash256
  | 0 => 0
  | height + 1 => idx.header_at height

def disconnect (idx : FilterIndex) (height : ℕ) : FilterIndex :=
  let idx := idx.demote height
  { idx with last_header := idx.header_below height }

def lookup (idx : FilterIndex) (height : ℕ) (hash : BlockHash) : Option (List UInt8 × Hash256) :=
  match idx.by_height.lookup height with
  | some entry => if entry.1 = hash then some entry.2 else idx.by_hash.lookup hash
  | none => idx.by_hash.lookup hash

def record_bytes (record : ℕ × FilterEntry) : List UInt8 :=
  le 4 record.1 ++ (record.2.1.to_bytes ++ (le 4 record.2.2.1.length ++ record.2.2.1 ++ record.2.2.2.to_bytes))

def read_filter : Decoder (List UInt8) := read_u32_le >>= read_bytes

def read_entry : Decoder (ℕ × FilterEntry) := do
  let height ← read_u32_le
  let hash ← read_hash
  let filter ← read_filter
  let header ← read_hash
  pure (height, hash, filter, header)

/-- One turn of the loop. A record is 72 bytes and its filter; it reads when that many are left. -/
def read_record (bytes : List UInt8) : Option ((ℕ × FilterEntry) × List UInt8) := (read_entry bytes).toOption

def apply_record (idx : FilterIndex) (record : ℕ × FilterEntry) : FilterIndex := idx.insert record.1 record.2

def open_log (file : Option (List UInt8)) : FilterIndex :=
  match file with
  | some bytes =>
    if MAGIC.isPrefixOf bytes then
      let (idx, rest) := RecordLog.scan read_record apply_record bytes.length empty (bytes.drop MAGIC.length)
      { idx with log := some (bytes.take (bytes.length - rest.length)) }
    else { empty with log := some MAGIC }
  | none => { empty with log := some MAGIC }

variable [Platform]

def append (idx : FilterIndex) (height : ℕ) (block : Block) (undo : BlockUndo) : FilterIndex :=
  let filter := Gcs.build_basic block undo
  let header := Gcs.compute_header (Gcs.filter_hash filter) idx.last_header
  let idx := idx.insert height (block.block_hash, filter, header)
  { idx with log := idx.log.map fun log => log ++ record_bytes (height, block.block_hash, filter, header) }

/-- One turn of the backfill: a height that already holds its active block is skipped, and so is one
whose body is gone. -/
def backfill (body : BlockHash → Option Block) (undo : ℕ → Option BlockUndo) (idx : FilterIndex)
    (at_height : BlockHash × ℕ) : FilterIndex :=
  if (idx.by_height.lookup at_height.2).any fun entry => entry.1 == at_height.1 then idx
  else
    match body at_height.1 with
    | none => idx
    | some block => idx.append at_height.2 block ((undo at_height.2).getD ⟨[]⟩)

def enable (file : Option (List UInt8)) (chain : List BlockHash) (body : BlockHash → Option Block)
    (undo : ℕ → Option BlockUndo) : FilterIndex :=
  chain.zipIdx.foldl (backfill body undo) (open_log file)

end FilterIndex

end AvilaNode
