import AvilaNode.Layers
import AvilaNode.RecordLog
import AvilaNode.TransactionCodec
import Mathlib.Data.List.Destutter
import Mathlib.Data.List.DropRight

/-! The scripthash index and its log of connect and disconnect records. -/

namespace AvilaNode

open ByteReader ByteStrings Decoder Layers

abbrev BlockScripts := List (Txid × List Hash256)

structure ScripthashIndex where
  by_script : Table Hash256 (List (ℕ × ℕ × Txid))
  by_height : Table ℕ BlockScripts
  log : Option LogFile

namespace ScripthashIndex

def MAGIC : List UInt8 := [0x73, 0x63, 0x69, 0x64, 0x78, 0x01, 0x00, 0x00]

def empty : ScripthashIndex := ⟨∅, ∅, none⟩

def unwind (height : ℕ) (by_script : Table Hash256 (List (ℕ × ℕ × Txid))) (sh : Hash256) :
    Table Hash256 (List (ℕ × ℕ × Txid)) :=
  match by_script.lookup sh with
  | none => by_script
  | some entries =>
    let entries := entries.rdropWhile fun entry => entry.1 == height
    if entries.isEmpty then by_script.erase sh else by_script.insert sh entries

def rewind (idx : ScripthashIndex) (height : ℕ) : ScripthashIndex :=
  match idx.by_height.lookup height with
  | none => idx
  | some recs => { idx with
      by_script := (recs.flatMap Prod.snd).foldl (unwind height) idx.by_script
      by_height := idx.by_height.erase height }

def push_entry (entry : ℕ × ℕ × Txid) (by_script : Table Hash256 (List (ℕ × ℕ × Txid))) (sh : Hash256) :
    Table Hash256 (List (ℕ × ℕ × Txid)) :=
  by_script.insert sh ((by_script.lookup sh).getD [] ++ [entry])

def apply_connect (idx : ScripthashIndex) (height : ℕ) (recs : BlockScripts) : ScripthashIndex :=
  let idx := idx.rewind height
  { idx with
    by_script := recs.zipIdx.foldl
      (fun by_script r => r.1.2.foldl (push_entry (height, r.2 % 2 ^ 16, r.1.1)) by_script) idx.by_script
    by_height := idx.by_height.insert height recs }

def write_log (idx : ScripthashIndex) (bytes : List UInt8) : ScripthashIndex :=
  { idx with log := idx.log.map fun file => file.write_all bytes }

def tx_record (r : Txid × List Hash256) : List UInt8 :=
  r.1.to_bytes ++ (le 2 r.2.length ++ r.2.flatMap Hash256.to_bytes)

-- the tags are `b'C'` and `b'D'`
def connect_record (height : ℕ) (recs : BlockScripts) : List UInt8 :=
  le 4 height ++ 0x43 :: (le 2 recs.length ++ recs.flatMap tx_record)

def disconnect_record (height : ℕ) : List UInt8 := le 4 height ++ [0x44]

def disconnect (idx : ScripthashIndex) (height : ℕ) : ScripthashIndex :=
  (idx.rewind height).write_log (disconnect_record height)

inductive Record where
  | connect (height : ℕ) (recs : BlockScripts)
  | disconnect (height : ℕ)
deriving DecidableEq

def read_tx : Decoder (Txid × List Hash256) := do
  let txid ← read_hash
  let scripts ← read_u16_le >>= repeated read_hash
  pure (txid, scripts)

def read_recs : Decoder BlockScripts := read_u16_le >>= repeated read_tx

/-- One turn of the loop: `none` ends it, for a torn record and an unknown one alike. Every turn asks
for the seven bytes a connect record starts with. -/
def read_record (bytes : List UInt8) : Option (Record × List UInt8) :=
  if bytes.length < 7 then none
  else
    let height := value (bytes.take 4)
    let rest := bytes.drop 5
    match (bytes[4]? : Option UInt8) with
    | some 0x44 => some (.disconnect height, rest)
    | some 0x43 =>
      match read_recs rest with
      | .ok (recs, rest) => some (.connect height recs, rest)
      | .error _ => none
    | _ => none

def apply_record (idx : ScripthashIndex) : Record → ScripthashIndex
  | .connect height recs => idx.apply_connect height recs
  | .disconnect height => idx.disconnect height

/-- `open`, on what `scindex.dat` holds if it exists. The handle is where `read_to_end` left it. -/
def open_log (file : Option (List UInt8)) : ScripthashIndex :=
  match file with
  | some bytes =>
    let (idx, committed) :=
      if MAGIC.isPrefixOf bytes then
        let (idx, rest) := RecordLog.scan read_record apply_record bytes.length empty (bytes.drop MAGIC.length)
        (idx, bytes.length - rest.length)
      else (empty, MAGIC.length)
    { idx with log := some (if bytes.length ≠ committed then (LogFile.at_end bytes).set_len committed
        else LogFile.at_end bytes) }
  | none => { empty with log := some ((LogFile.at_end []).write_all MAGIC) }

def reopen (idx : ScripthashIndex) : ScripthashIndex := open_log (idx.log.map LogFile.bytes)

theorem read_u16_le_inverts : Inverts read_u16_le (le 2) (fun n => n < 2 ^ 16) :=
  (read_le_inverts 2).mono fun n => by norm_num

theorem read_scripts_inverts : Inverts (read_u16_le >>= repeated read_hash)
    (fun scripts => le 2 scripts.length ++ scripts.flatMap Hash256.to_bytes)
    (fun scripts => scripts.length < 2 ^ 16) :=
  (read_u16_le_inverts.counted read_hash_inverts).mono fun scripts => by simp

theorem read_tx_inverts : Inverts read_tx tx_record (fun r => r.2.length < 2 ^ 16) where
  read_write := by
    rintro ⟨txid, scripts⟩ rest h
    rw [tx_record, List.append_assoc, read_tx, bind_ok (read_hash_inverts.read_write _ trivial),
      bind_ok (read_scripts_inverts.read_write rest h)]
    rfl
  write_read := by
    intro bytes r rest h
    obtain ⟨txid, middle, ht, h⟩ := bind_eq_ok.mp h
    obtain ⟨scripts, tail, hs, h⟩ := bind_eq_ok.mp h
    cases h
    obtain ⟨-, rfl⟩ := read_hash_inverts.write_read ht
    obtain ⟨hl, rfl⟩ := read_scripts_inverts.write_read hs
    exact ⟨hl, by simp [tx_record]⟩

theorem read_recs_inverts : Inverts read_recs (fun recs => le 2 recs.length ++ recs.flatMap tx_record)
    (fun recs => recs.length < 2 ^ 16 ∧ ∀ r ∈ recs, r.2.length < 2 ^ 16) :=
  read_u16_le_inverts.counted read_tx_inverts

def Record.bytes : Record → List UInt8
  | .connect height recs => connect_record height recs
  | .disconnect height => disconnect_record height

def Record.Narrow : Record → Prop
  | .connect height recs => height < 2 ^ 32 ∧ recs.length < 2 ^ 16 ∧ ∀ r ∈ recs, r.2.length < 2 ^ 16
  | .disconnect height => height < 2 ^ 32

theorem read_connect_record {height : ℕ} {recs : BlockScripts} (h : (Record.connect height recs).Narrow)
    (rest : List UInt8) :
    read_record (connect_record height recs ++ rest) = some (.connect height recs, rest) := by
  obtain ⟨hh, hr⟩ := h
  have hlen : ¬ (connect_record height recs ++ rest).length < 7 := by simp [connect_record]
  have hvalue : value ((connect_record height recs ++ rest).take 4) = height := by
    rw [connect_record, List.append_assoc, List.take_left' (length_le 4 height)]
    exact value_le (by norm_num; exact hh)
  have hread : read_recs ((connect_record height recs ++ rest).drop 5) = .ok (recs, rest) := by
    have hdrop : (connect_record height recs ++ rest).drop 5
        = (le 2 recs.length ++ recs.flatMap tx_record) ++ rest := by
      simp [connect_record]
    rw [hdrop, read_recs_inverts.read_write rest hr]
  have htag : (connect_record height recs ++ rest)[4]? = some 0x43 := by simp [connect_record]
  simp only [read_record, hlen, if_false, htag, hvalue, hread]

theorem read_disconnect_record {height : ℕ} (h : height < 2 ^ 32) {rest : List UInt8} (hr : 2 ≤ rest.length) :
    read_record (disconnect_record height ++ rest) = some (.disconnect height, rest) := by
  have hlen : ¬ (disconnect_record height ++ rest).length < 7 := by simp [disconnect_record]; omega
  have hvalue : value ((disconnect_record height ++ rest).take 4) = height := by
    rw [disconnect_record, List.append_assoc, List.take_left' (length_le 4 height)]
    exact value_le (by norm_num; exact h)
  have hdrop : (disconnect_record height ++ rest).drop 5 = rest := by simp [disconnect_record]
  have htag : (disconnect_record height ++ rest)[4]? = some 0x44 := by simp [disconnect_record]
  simp only [read_record, hlen, if_false, htag, hvalue, hdrop]

theorem Record.five_le_length (record : Record) : 5 ≤ record.bytes.length := by
  cases record with
  | connect height recs => simp [bytes, connect_record]
  | disconnect height => simp [bytes, disconnect_record]

variable (sha256 : Script → Hash256)

def sorted_scripts (scripts : List Hash256) : List Hash256 :=
  (scripts.insertionSort fun a b => a.toNat ≤ b.toNat).destutter (· ≠ ·)

def tx_scripts (tx : Transaction) (undo : Option TxUndo) : List Hash256 :=
  let created := tx.outputs.map fun out => sha256 out.script_pubkey
  match undo with
  | none => sorted_scripts created
  | some u => sorted_scripts (created
      ++ u.spent.map (fun coin => sha256 coin.out.script_pubkey)
      ++ u.overwritten.map fun e => sha256 e.2.out.script_pubkey)

variable [Platform]

def block_scripts (block : Block) (undo : BlockUndo) : BlockScripts :=
  block.transactions.zipIdx.map fun (tx, i) => (tx.txid, tx_scripts sha256 tx undo.txs[i]?)

def append (idx : ScripthashIndex) (height : ℕ) (block : Block) (undo : BlockUndo) : ScripthashIndex :=
  let recs := block_scripts sha256 block undo
  (idx.apply_connect height recs).write_log (connect_record height recs)

end ScripthashIndex

end AvilaNode
