import AvilaNode.Layers
import AvilaNode.RecordLog
import AvilaNode.TransactionCodec

/-! The transaction index and its append log, whose writes may stop at any byte. -/

namespace AvilaNode

open ByteReader ByteStrings Decoder Layers

abbrev TxRecord := BlockHash × List Txid

structure TxIndex where
  map : Table Txid BlockHash
  indexed : Finset BlockHash
  -- opened to append: a write goes to the end
  log : Option (List UInt8)

namespace TxIndex

def MAGIC : List UInt8 := [0x74, 0x78, 0x69, 0x64, 0x78, 0x01, 0x00, 0x00]

def empty : TxIndex := ⟨∅, ∅, none⟩

def record_bytes (record : TxRecord) : List UInt8 :=
  record.1.to_bytes ++ (le 4 record.2.length ++ record.2.flatMap Hash256.to_bytes)

def read_entry : Decoder TxRecord := do
  let hash ← read_hash
  let txids ← read_u32_le >>= repeated read_hash
  pure (hash, txids)

/-- One turn of the loop. A record is 36 bytes and its ids; it reads when that many are left. -/
def read_record (bytes : List UInt8) : Option (TxRecord × List UInt8) := (read_entry bytes).toOption

def apply_record (idx : TxIndex) (record : TxRecord) : TxIndex :=
  { idx with
    map := record.2.foldl (fun map txid => map.insert txid record.1) idx.map
    indexed := insert record.1 idx.indexed }

def open_ (file : Option (List UInt8)) : TxIndex :=
  match file with
  | some bytes =>
    if MAGIC.isPrefixOf bytes then
      let (idx, rest) := RecordLog.scan read_record apply_record bytes.length empty (bytes.drop MAGIC.length)
      { idx with log := some (bytes.take (bytes.length - rest.length)) }
    else { empty with log := some MAGIC }
  | none => { empty with log := some MAGIC }

/-- The write takes `written` bytes of the record: all of them when it does not fail. -/
def index_block [Platform] (idx : TxIndex) (hash : BlockHash) (block : Block) (written : ℕ) : TxIndex :=
  if hash ∈ idx.indexed then idx
  else
    let record : TxRecord := (hash, block.transactions.map Platform.txid)
    let idx := idx.apply_record record
    { idx with log := idx.log.map fun log => log ++ (record_bytes record).take written }

def backfill [Platform] (body : BlockHash → Block) (idx : TxIndex) : List (BlockHash × ℕ) → TxIndex
  | [] => idx
  | (hash, written) :: bodies => backfill body (idx.index_block hash (body hash) written) bodies

theorem read_entry_inverts : Inverts read_entry record_bytes fun record => record.2.length < 2 ^ 32 where
  read_write := by
    rintro ⟨hash, txids⟩ rest h
    have htxids := (Inverts.counted read_u32_le_inverts read_hash_inverts).read_write rest
      (a := txids) ⟨h, fun _ _ => trivial⟩
    rw [record_bytes, List.append_assoc, read_entry, bind_ok (read_hash_inverts.read_write _ trivial), bind_ok htxids]
    rfl
  write_read := by
    intro bytes record rest h
    obtain ⟨hash, b₁, hhash, h⟩ := bind_eq_ok.mp h
    obtain ⟨txids, b₂, htxids, h⟩ := bind_eq_ok.mp h
    cases h
    obtain ⟨-, hw⟩ := read_hash_inverts.write_read hhash
    obtain ⟨⟨hl, -⟩, hws⟩ := (Inverts.counted read_u32_le_inverts read_hash_inverts).write_read htxids
    exact ⟨hl, by rw [record_bytes, List.append_assoc, hws, hw]⟩

variable {record : TxRecord}

variable {bytes rest : List UInt8}

theorem read_record_eq_some :
    read_record bytes = some (record, rest) ↔ record.2.length < 2 ^ 32 ∧ record_bytes record ++ rest = bytes := by
  unfold read_record
  constructor
  · intro h
    cases hr : read_entry bytes with
    | error e =>
      rw [hr] at h
      cases h
    | ok r =>
      rw [hr] at h
      cases h
      exact read_entry_inverts.write_read hr
  · rintro ⟨hl, rfl⟩
    rw [read_entry_inverts.read_write rest hl]
    rfl

theorem read_record_torn (hl : record.2.length < 2 ^ 32) {written : ℕ}
    (hw : written < (record_bytes record).length) : read_record ((record_bytes record).take written) = none := by
  by_contra hne
  obtain ⟨⟨other, rest⟩, hread⟩ := Option.ne_none_iff_exists'.mp hne
  obtain ⟨ho, hother⟩ := read_record_eq_some.mp hread
  -- Whole, it reads both as the record itself and as the one the cut reads as.
  have hwhole : record_bytes other ++ (rest ++ (record_bytes record).drop written) = record_bytes record := by
    rw [← List.append_assoc, hother, List.take_append_drop]
  have hself := read_record_eq_some.mpr ⟨hl, List.append_nil (record_bytes record)⟩
  rw [read_record_eq_some.mpr ⟨ho, hwhole⟩] at hself
  have htail := congrArg List.length (Prod.mk.inj (Option.some.inj hself)).2
  rw [List.length_append, List.length_drop, List.length_nil] at htail
  omega

theorem length_read_record {record : TxRecord} (h : read_record bytes = some (record, rest)) :
    rest.length < bytes.length := by
  obtain ⟨-, rfl⟩ := read_record_eq_some.mp h
  simp only [record_bytes, List.length_append, Hash256.length_to_bytes]
  omega

theorem open_records {records : List TxRecord} (hl : ∀ record ∈ records, record.2.length < 2 ^ 32) {tail : List UInt8}
    (ht : read_record tail = none) : open_ (some (MAGIC ++ (records.flatMap record_bytes ++ tail)))
      = { records.foldl apply_record empty with log := some (MAGIC ++ records.flatMap record_bytes) } := by
  have hcount : records.length ≤ (records.flatMap record_bytes).length := by
    induction records with
    | nil => simp
    | cons record records ih =>
      rw [List.forall_mem_cons] at hl
      have := ih hl.2
      have hpos : 0 < (record_bytes record).length := by simp [record_bytes]
      rw [List.flatMap_cons, List.length_append, List.length_cons]
      omega
  have hscan : RecordLog.scan read_record apply_record (MAGIC ++ (records.flatMap record_bytes ++ tail)).length empty
      (records.flatMap record_bytes ++ tail) = (records.foldl apply_record empty, tail) := by
    apply RecordLog.scan_records
    · rintro front record back rfl
      exact read_record_eq_some.mpr ⟨hl record (by simp), rfl⟩
    · exact ht
    · simp only [List.length_append]
      omega
  have hmagic : MAGIC.isPrefixOf (MAGIC ++ (records.flatMap record_bytes ++ tail)) = true :=
    List.isPrefixOf_iff_prefix.mpr (List.prefix_append _ _)
  have hcut : (MAGIC ++ (records.flatMap record_bytes ++ tail)).take
      ((MAGIC ++ (records.flatMap record_bytes ++ tail)).length - tail.length)
        = MAGIC ++ records.flatMap record_bytes := by
    rw [← List.append_assoc, List.length_append, Nat.add_sub_cancel, List.take_left']
    rfl
  simp only [open_]
  rw [if_pos hmagic, List.drop_left' rfl, hscan]
  rw [hcut]

theorem lookup_apply_record (idx : TxIndex) (record : TxRecord) (txid : Txid) :
    (idx.apply_record record).map.lookup txid = if txid ∈ record.2 then some record.1 else idx.map.lookup txid := by
  have hfold : ∀ (txids : List Txid) (map : Table Txid BlockHash),
      (txids.foldl (fun map txid => map.insert txid record.1) map).lookup txid
        = if txid ∈ txids then some record.1 else map.lookup txid := by
    intro txids
    induction txids with
    | nil => simp
    | cons t txids ih =>
      intro map
      rw [List.foldl_cons, ih, lookup_insert_eq]
      by_cases ht : txid = t
      · simp [ht]
      · simp [ht]
  exact hfold record.2 idx.map

section

variable [Platform]

def block_txids (block : Block) : List Txid := block.transactions.map Platform.txid

/-- Every entry is true of a block in `calls`, and every block marked as indexed has its entries. -/
structure Faithful (body : BlockHash → Block) (calls : List BlockHash) (idx : TxIndex) : Prop where
  entries : ∀ txid hash, idx.map.lookup txid = some hash → hash ∈ calls ∧ txid ∈ block_txids (body hash)
  covered : ∀ hash ∈ idx.indexed, hash ∈ calls ∧ ∀ txid ∈ block_txids (body hash), ∃ other,
    idx.map.lookup txid = some other

theorem Faithful.empty (body : BlockHash → Block) (calls : List BlockHash) (log : Option (List UInt8)) :
    Faithful body calls { TxIndex.empty with log } := by
  constructor
  · intro txid hash h
    cases h
  · intro hash h
    simp [TxIndex.empty] at h

variable {body : BlockHash → Block} {calls : List BlockHash} {idx : TxIndex}

theorem Faithful.apply_record (h : Faithful body calls idx) {hash : BlockHash} (hc : hash ∈ calls) :
    Faithful body calls (idx.apply_record (hash, block_txids (body hash))) := by
  constructor
  · intro txid other ho
    rw [lookup_apply_record] at ho
    split at ho
    · rename_i hmem
      cases ho
      exact ⟨hc, hmem⟩
    · exact h.entries txid other ho
  · intro other ho
    have hkept : ∀ txid, (∃ found, idx.map.lookup txid = some found) →
        ∃ found, (idx.apply_record (hash, block_txids (body hash))).map.lookup txid = some found := by
      rintro txid ⟨found, hf⟩
      rw [lookup_apply_record]
      split
      · exact ⟨hash, rfl⟩
      · exact ⟨found, hf⟩
    rcases Finset.mem_insert.mp ho with rfl | ho
    · refine ⟨hc, fun txid ht => ⟨other, ?_⟩⟩
      rw [lookup_apply_record, if_pos ht]
    · exact ⟨(h.covered other ho).1, fun txid ht => hkept txid ((h.covered other ho).2 txid ht)⟩

variable {calls' : List BlockHash}

theorem Faithful.mono (h : Faithful body calls idx) (hc : ∀ hash ∈ calls, hash ∈ calls') :
    Faithful body calls' idx where
  entries txid hash he := ⟨hc hash (h.entries txid hash he).1, (h.entries txid hash he).2⟩
  covered hash hm := ⟨hc hash (h.covered hash hm).1, (h.covered hash hm).2⟩

theorem Faithful.index_block (h : Faithful body calls idx) (hash : BlockHash) (written : ℕ) :
    Faithful body (hash :: calls) (idx.index_block hash (body hash) written) := by
  have hgrown : Faithful body (hash :: calls) idx := h.mono fun _ hm => List.mem_cons_of_mem _ hm
  unfold TxIndex.index_block
  split
  · exact hgrown
  · have := @Faithful.apply_record _ body (hash :: calls) idx hgrown hash List.mem_cons_self
    exact ⟨this.entries, this.covered⟩

theorem Faithful.backfill (h : Faithful body calls idx) (bodies : List (BlockHash × ℕ)) :
    Faithful body (bodies.reverse.map Prod.fst ++ calls) (backfill body idx bodies)
      ∧ (∀ hash ∈ idx.indexed, hash ∈ (TxIndex.backfill body idx bodies).indexed)
      ∧ ∀ e ∈ bodies, e.1 ∈ (TxIndex.backfill body idx bodies).indexed := by
  induction bodies generalizing calls idx with
  | nil => exact ⟨by simpa [TxIndex.backfill] using h, fun _ hm => hm, by simp⟩
  | cons e bodies ih =>
    obtain ⟨hash, written⟩ := e
    obtain ⟨hf, hkept, hall⟩ := ih (h.index_block hash written)
    have hin : hash ∈ (idx.index_block hash (body hash) written).indexed
        ∧ ∀ other ∈ idx.indexed, other ∈ (idx.index_block hash (body hash) written).indexed := by
      unfold TxIndex.index_block
      split
      · rename_i hm
        exact ⟨hm, fun _ hm => hm⟩
      · exact ⟨Finset.mem_insert_self _ _, fun _ hm => Finset.mem_insert_of_mem hm⟩
    refine ⟨?_, fun other hm => hkept other (hin.2 other hm), ?_⟩
    · simpa [TxIndex.backfill] using hf
    · intro other hm
      rcases List.mem_cons.mp hm with rfl | hm
      · exact hkept hash hin.1
      · exact hall other hm

inductive Stage where
  | closed (file : Option (List UInt8))
  | live (idx : TxIndex)

def Stage.file : Stage → Option (List UInt8)
  | closed file => file
  | live idx => idx.log

def Whole (idx : TxIndex) (hash : BlockHash) (written : ℕ) : Prop :=
  hash ∈ idx.indexed ∨ written = 0 ∨ (open_ idx.log).log = idx.log

/-- Sessions on one log, from a file that is not ours or not there. A call's write may stop at any byte. `allowed`
tells which calls are made. -/
inductive Run (allowed : TxIndex → BlockHash → ℕ → Prop) (body : BlockHash → Block) :
    Stage → List BlockHash → Prop
  | fresh {file : Option (List UInt8)} (h : ∀ bytes, file = some bytes → MAGIC.isPrefixOf bytes = false) :
      Run allowed body (.closed file) []
  | open_ {file : Option (List UInt8)} {calls : List BlockHash} : Run allowed body (.closed file) calls →
      Run allowed body (.live (TxIndex.open_ file)) calls
  | index {idx : TxIndex} {calls : List BlockHash} (hash : BlockHash) (written : ℕ) :
      Run allowed body (.live idx) calls → allowed idx hash written →
      Run allowed body (.live (idx.index_block hash (body hash) written)) (hash :: calls)
  | close {idx : TxIndex} {calls : List BlockHash} : Run allowed body (.live idx) calls →
      Run allowed body (.closed idx.log) calls

def Ours (body : BlockHash → Block) (calls : List BlockHash) (file : Option (List UInt8)) : Prop :=
  ∃ (hashes : List BlockHash) (tail : List UInt8), (∀ hash ∈ hashes, hash ∈ calls) ∧ read_record tail = none
    ∧ file = some (MAGIC ++ ((hashes.map fun hash => (hash, block_txids (body hash))).flatMap record_bytes ++ tail))

def Foreign (file : Option (List UInt8)) : Prop := ∀ bytes, file = some bytes → MAGIC.isPrefixOf bytes = false

def Stage.Logged (body : BlockHash → Block) (calls : List BlockHash) : Stage → Prop
  | closed file => Foreign file ∨ Ours body calls file
  | live idx => Ours body calls idx.log

variable {file : Option (List UInt8)}

omit [Platform] in
theorem open_foreign (h : Foreign file) : open_ file =
    { empty with log := some MAGIC } := by
  cases file with
  | none => rfl
  | some bytes =>
    rw [open_]
    rw [h bytes rfl]
    rfl

omit [Platform] in
theorem read_record_nil : read_record [] = none := by
  by_contra hne
  obtain ⟨r, hr⟩ := Option.ne_none_iff_exists'.mp hne
  have := @length_read_record [] r.2 r.1 hr
  simp at this

theorem Faithful.records (body : BlockHash → Block) {hashes : List BlockHash} (h : ∀ hash ∈ hashes, hash ∈ calls) :
    ∀ {idx : TxIndex}, Faithful body calls idx →
      Faithful body calls ((hashes.map fun hash =>
        (hash, block_txids (body hash))).foldl TxIndex.apply_record idx) := by
  induction hashes with
  | nil => exact fun hi => hi
  | cons hash hashes ih =>
    intro idx hi
    rw [List.forall_mem_cons] at h
    exact ih h.2 (hi.apply_record h.1)

theorem records_fit (hfit : ∀ hash, (body hash).transactions.length < 2 ^ 32) (hashes : List BlockHash) :
    ∀ record ∈ hashes.map fun hash => (hash, block_txids (body hash)), record.2.length < 2 ^ 32 := by
  intro record hr
  obtain ⟨hash, -, rfl⟩ := List.mem_map.mp hr
  simpa [block_txids] using hfit hash

theorem open_logged (hfit : ∀ hash, (body hash).transactions.length < 2 ^ 32)
    (h : Foreign file ∨ Ours body calls file) :
    Faithful body calls (open_ file) ∧ Ours body calls (open_ file).log := by
  rcases h with h | ⟨hashes, tail, hcalls, htail, rfl⟩
  · rw [open_foreign h]
    refine ⟨Faithful.empty body calls _, [], [], by simp, read_record_nil, ?_⟩
    simp
  · rw [open_records (records_fit hfit hashes) htail]
    have hf := Faithful.records body hcalls (Faithful.empty body calls none)
    refine ⟨⟨hf.entries, hf.covered⟩, hashes, [], hcalls, read_record_nil, ?_⟩
    rw [List.append_nil]

theorem Ours.mono (h : Ours body calls file) (hc : ∀ hash ∈ calls, hash ∈ calls') : Ours body calls' file := by
  obtain ⟨hashes, tail, hcalls, hrest⟩ := h
  exact ⟨hashes, tail, fun hash hm => hc hash (hcalls hash hm), hrest⟩

theorem Ours.index_block (hfit : ∀ hash, (body hash).transactions.length < 2 ^ 32) (h : Ours body calls idx.log)
    {hash : BlockHash} {written : ℕ} (hw : Whole idx hash written) : Ours body (hash :: calls)
    (idx.index_block hash (body hash) written).log := by
  have hgrown : Ours body (hash :: calls) idx.log := h.mono fun _ hm => List.mem_cons_of_mem _ hm
  unfold TxIndex.index_block
  split
  · exact hgrown
  rename_i hnew
  rcases hw with hw | rfl | hwhole
  · exact absurd hw hnew
  · have hsame : (idx.log.map fun log => log ++ (record_bytes (hash, block_txids (body hash))).take 0) =
      idx.log := by
      cases idx.log <;> simp
    change Ours body (hash :: calls)
      (idx.log.map fun log => log ++ (record_bytes (hash, block_txids (body hash))).take 0)
    rw [hsame]
    exact hgrown
  · obtain ⟨hashes, tail, hcalls, htail, hlog⟩ := h
    have hempty : tail = [] := by
      rw [hlog, open_records (records_fit hfit hashes) htail, Option.some.injEq, ← List.append_assoc] at hwhole
      exact List.self_eq_append_right.mp hwhole
    have hcalls' : ∀ other ∈ hashes ++ [hash], other ∈ hash :: calls := by
      intro other hm
      rcases List.mem_append.mp hm with hm | hm
      · exact List.mem_cons_of_mem _ (hcalls other hm)
      · rw [List.mem_singleton.mp hm]
        exact List.mem_cons_self
    change Ours body (hash :: calls)
      (idx.log.map fun log => log ++ (record_bytes (hash, block_txids (body hash))).take written)
    rw [hlog, hempty, List.append_nil, Option.map_some, List.append_assoc]
    by_cases hall : written < (record_bytes (hash, block_txids (body hash))).length
    · refine ⟨hashes, _, fun other hm => List.mem_cons_of_mem _ (hcalls other hm), read_record_torn ?_ hall, rfl⟩
      simpa [block_txids] using hfit hash
    · refine ⟨hashes ++ [hash], [], hcalls', read_record_nil, ?_⟩
      rw [List.take_of_length_le (not_lt.mp hall)]
      simp

theorem Run.logged (hfit : ∀ hash, (body hash).transactions.length < 2 ^ 32) {stage : Stage}
    (h : Run Whole body stage calls) : stage.Logged body calls := by
  induction h with
  | fresh h => exact Or.inl h
  | open_ _ ih => exact (open_logged hfit ih).2
  | index hash written _ hw ih => exact Ours.index_block hfit ih hw
  | close _ ih => exact Or.inr ih

/-- After sessions in which nothing is written behind a torn record, reopening the log gives entries that are true of
blocks that were indexed, and the backfill makes every id of a retained body findable. -/
theorem reopen_faithful (hfit : ∀ hash, (body hash).transactions.length < 2 ^ 32) {stage : Stage}
    (h : Run Whole body stage calls) :
    (∀ txid hash, (open_ stage.file).map.lookup txid = some hash →
      hash ∈ calls ∧ txid ∈ block_txids (body hash))
    ∧ ∀ (bodies : List (BlockHash × ℕ)), ∀ e ∈ bodies, ∀ txid ∈ block_txids (body e.1), ∃ hash,
      (backfill body (open_ stage.file) bodies).map.lookup txid = some hash ∧ txid ∈ block_txids (body hash) := by
  have hfile : Foreign stage.file ∨ Ours body calls stage.file := by
    have hl := h.logged hfit
    cases stage with
    | closed file => exact hl
    | live idx => exact Or.inr hl
  obtain ⟨hf, -⟩ := open_logged hfit hfile
  refine ⟨hf.entries, fun bodies e he txid ht => ?_⟩
  obtain ⟨hback, -, hall⟩ := hf.backfill bodies
  obtain ⟨hash, hfound⟩ := (hback.covered e.1 (hall e he)).2 txid ht
  exact ⟨hash, hfound, (hback.entries txid hash hfound).2⟩

end

section

attribute [local instance] Platform.sample

def sample_body (hash : BlockHash) : Block := ⟨sample_header 0 hash.toNat 7, [⟨1, [], [], hash.toNat + 10⟩]⟩

theorem reopen_faithful_sample : ∃ hash,
    (backfill sample_body (open_ ((open_ none).index_block 1 (sample_body 1) 36).log)
    [(1, 72)]).map.lookup 11 = some hash ∧ 11 ∈ block_txids (sample_body hash) := by
  have hrun : Run Whole sample_body (.live ((open_ none).index_block 1 (sample_body 1) 36)) [1] :=
    .index 1 36 (.open_ (.fresh (by simp))) (Or.inr (Or.inr (by decide)))
  have hspec := reopen_faithful (fun _ => by simp [sample_body]) hrun
  exact hspec.2 [(1, 72)] (1, 72) (by simp) 11 (by decide)

def torn_index : TxIndex :=
  ((open_ none).index_block 1 (sample_body 1) 36).index_block 2 (sample_body 2) 72

theorem torn_record_misread : Run (fun _ _ _ => True) sample_body (.live torn_index) [2, 1]
    ∧ ((open_ torn_index.log).map.lookup 2 = some 1 ∧ 2 ∉ block_txids (sample_body 1))
    ∧ (11 ∈ block_txids (sample_body 1)
      ∧ (backfill sample_body (open_ torn_index.log) [(1, 72), (2, 72)]).map.lookup 11 = none) := by
  refine ⟨.index 2 72 (.index 1 36 (.open_ (.fresh (by simp))) trivial) trivial, ?_⟩
  decide

end

end TxIndex

end AvilaNode
