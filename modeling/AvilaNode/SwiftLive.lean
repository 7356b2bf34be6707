import AvilaNode.BlockFiles
import AvilaNode.SwiftJournal

/-! The live-outpoint index: applying a block, rewinding one, and what it streams when complete. -/

namespace AvilaNode

open ByteStrings CoinCodec Layers

namespace SwiftLive

def FULL_UNDO_MAGIC : List UInt8 := [0x41, 0x56, 0x55, 0x4e, 0x44, 0x4f, 0x30, 0x31]

def TX_META_MAGIC : List UInt8 := [0x41, 0x56, 0x54, 0x58, 0x4d, 0x45, 0x54, 0x41]

def MAX_CACHE_BYTES : ℕ := 256 * 1024 * 1024

def DEFAULT_REORG_DEPTH : ℕ := 288

def MAX_REORG_DEPTH : ℕ := 10000

structure SwiftLiveBinding where
  network : Network
  start_height : ℕ
  start_hash : BlockHash
  target_height : ℕ
  target_hash : BlockHash
  params_commitment : Hash256
  -- heights are `u32`
  target_height_le : target_height ≤ U32_MAX
deriving DecidableEq

structure SwiftLiveLimits where
  max_live_entries : ℕ
  max_live_encoded_bytes : ℕ
  max_undo_encoded_bytes : ℕ
  max_survivor_entries : ℕ
  max_survivor_encoded_bytes : ℕ
  max_reorg_depth : ℕ
  max_block_events : ℕ
  cache_bytes : ℕ
deriving DecidableEq

inductive LiveEvent where
  | Spend (outpoint : OutPoint) (height : ℕ) (coinbase : Bool)
  | Create (outpoint : OutPoint) (height : ℕ) (coinbase allow_live_overwrite : Bool)

structure State where
  live_entries : ℕ
  live_bytes : ℕ
  undo_bytes : ℕ
  undo_floor : ℕ
  survivor_entries : ℕ
  survivor_bytes : ℕ
  complete : Bool
  height : ℕ
  hash : BlockHash
deriving DecidableEq

structure Database where
  coins : Table RunKey (List UInt8)
  metadata : SwiftLiveBinding × SwiftLiveLimits × State
  undo : Table ℕ (List UInt8)
  audit : Option (List UInt8)
  stump : Option (List UInt8)
  block_undo : Table ℕ (List UInt8)
  tx_meta : Table ℕ (List UInt8)
  survivors : Table RunKey (List UInt8)

structure SwiftLiveIndex where
  db : Database
  binding : SwiftLiveBinding
  limits : SwiftLiveLimits
  state : State

def validate (binding : SwiftLiveBinding) (limits : SwiftLiveLimits) : Except SwiftLiveError Unit :=
  reject (binding.target_height ≤ binding.start_height ∨ limits.max_live_entries = 0
    ∨ limits.max_live_encoded_bytes < 36 + ROW_LEN ∨ limits.max_undo_encoded_bytes < 4 + 68 + 32
    ∨ limits.max_survivor_entries = 0 ∨ limits.max_survivor_encoded_bytes < 41 ∨ limits.max_reorg_depth = 0
    ∨ MAX_REORG_DEPTH < limits.max_reorg_depth ∨ limits.max_block_events = 0
    ∨ MAX_BLOCK_EVENTS < limits.max_block_events ∨ limits.cache_bytes = 0 ∨ MAX_CACHE_BYTES < limits.cache_bytes)
    .InvalidConfig

def State.start (binding : SwiftLiveBinding) : State where
  live_entries := 0
  live_bytes := 0
  undo_bytes := 0
  undo_floor := binding.start_height
  survivor_entries := 0
  survivor_bytes := 0
  complete := false
  height := binding.start_height
  hash := binding.start_hash

def create (binding : SwiftLiveBinding) (limits : SwiftLiveLimits) : Except SwiftLiveError SwiftLiveIndex := do
  validate binding limits
  let state := State.start binding
  pure ⟨⟨∅, (binding, limits, state), ∅, none, none, ∅, ∅, ∅⟩, binding, limits, state⟩

structure Batch where
  coins : Table RunKey (List UInt8)
  survivors : Table RunKey (List UInt8)
  before : Table RunKey BeforeImage
  journal_value_bytes : ℕ
  next : State

def get_row (coins : Table RunKey (List UInt8)) (key : RunKey) : Except SwiftLiveError (Option LiveCoinMeta) :=
  match coins.lookup key with
  | none => .ok none
  | some bytes =>
    match decode_row bytes with
    | some row => .ok (some row)
    | none => .error .Corrupt

/-- The ceiling holds of a 64-bit sum only if it did not overflow. -/
def over_journal (limits : SwiftLiveLimits) (next : State) (journal_value_bytes : ℕ) : Prop :=
  limits.max_undo_encoded_bytes < next.undo_bytes + (4 + journal_value_bytes)

instance (limits : SwiftLiveLimits) (next : State) (journal_value_bytes : ℕ) :
    Decidable (over_journal limits next journal_value_bytes) := inferInstanceAs (Decidable (_ < _))

def enter_before (limits : SwiftLiveLimits) (key : RunKey) (live : Option LiveCoinMeta) (b : Batch) :
    Except SwiftLiveError Batch := do
  let survivor := b.survivors.lookup key
  let journal_value_bytes := b.journal_value_bytes + 46 + (survivor.getD []).length
  reject (over_journal limits b.next journal_value_bytes) .ByteLimit
  pure { b with before := b.before.insert key ⟨live.map encode_row, survivor⟩, journal_value_bytes }

def enter_vacant (limits : SwiftLiveLimits) (key : RunKey) (read : Except SwiftLiveError (Option LiveCoinMeta))
    (b : Batch) :
    Except SwiftLiveError Batch :=
  if (b.before.lookup key).isSome then pure b
  else do
    let live ← read
    enter_before limits key live b

def event_action (height : ℕ) (coins : Table RunKey (List UInt8)) :
    LiveEvent → Except SwiftLiveError (RunKey × Option LiveCoinMeta)
  | .Spend outpoint claim_height claim_coinbase => do
    let key := RunFile.outpoint_key outpoint
    match ← get_row coins key with
    | none => throw .MissingOrSpent
    | some current =>
      reject (current.height ≠ claim_height ∨ current.coinbase ≠ claim_coinbase) .ClaimMismatch
      pure (key, none)
  | .Create outpoint creation_height coinbase allow_live_overwrite => do
    reject (creation_height ≠ height) .ClaimMismatch
    let key := RunFile.outpoint_key outpoint
    let current ← get_row coins key
    reject (current.isSome ∧ allow_live_overwrite = false) .DuplicateLiveOutput
    pure (key, some ⟨creation_height, coinbase, true⟩)

def remove_live (key : RunKey) (b : Batch) : Except SwiftLiveError Batch := do
  reject (b.next.live_entries < 1) .Corrupt
  reject (b.next.live_bytes < 36 + ROW_LEN) .Corrupt
  pure { b with
    coins := b.coins.erase key
    next := { b.next with
      live_entries := b.next.live_entries - 1, live_bytes := b.next.live_bytes - (36 + ROW_LEN) } }

def write_live (limits : SwiftLiveLimits) (key : RunKey) (current : Option LiveCoinMeta) (row : LiveCoinMeta)
    (b : Batch) :
    Except SwiftLiveError Batch := do
  let next :=
    if current.isNone then
      { b.next with live_entries := b.next.live_entries + 1, live_bytes := b.next.live_bytes + (36 + ROW_LEN) }
    else b.next
  reject (limits.max_live_entries < next.live_entries) .EntryLimit
  reject (limits.max_live_encoded_bytes < next.live_bytes) .ByteLimit
  pure { b with coins := b.coins.insert key (encode_row row), next }

def apply_event (limits : SwiftLiveLimits) (height : ℕ) (b : Batch) (event : LiveEvent) :
    Except SwiftLiveError Batch := do
  let (key, action) ← event_action height b.coins event
  let current ← get_row b.coins key
  let b ← enter_vacant limits key (pure current) b
  match action with
  | none => do
    reject current.isNone .MissingOrSpent
    remove_live key b
  | some row => write_live limits key current row b

section

variable [PublicKeys]

def put_survivor (height : ℕ) (key : RunKey) (coin : Coin) (b : Batch) : Except SwiftLiveError Batch := do
  reject (coin.height ≠ height ∨ money_range coin.out.value = false
    ∨ MAX_AUDIT_SCRIPT_BYTES < coin.out.script_pubkey.length) .ClaimMismatch
  let existing := b.survivors.lookup key
  let encoded := encode_coin coin
  let old_size := (existing.map fun old => 36 + old.length).getD 0
  reject (b.next.survivor_bytes < old_size) .Overflow
  pure { b with
    survivors := b.survivors.insert key encoded
    next := { b.next with
      survivor_bytes := b.next.survivor_bytes - old_size + (36 + encoded.length)
      survivor_entries := if existing.isNone then b.next.survivor_entries + 1 else b.next.survivor_entries } }

def drop_survivor (key : RunKey) (b : Batch) : Except SwiftLiveError Batch :=
  match b.survivors.lookup key with
  | none => pure b
  | some old => do
    reject (b.next.survivor_entries < 1) .Corrupt
    reject (b.next.survivor_bytes < 36 + old.length) .Corrupt
    pure { b with
      survivors := b.survivors.erase key
      next := { b.next with
        survivor_entries := b.next.survivor_entries - 1
        survivor_bytes := b.next.survivor_bytes - (36 + old.length) } }

def replace_survivor (height : ℕ) (key : RunKey) : Option Coin → Batch → Except SwiftLiveError Batch
  | some coin => put_survivor height key coin
  | none => drop_survivor key

def apply_survivor (limits : SwiftLiveLimits) (height : ℕ) (b : Batch) (update : OutPoint × Option Coin) :
    Except SwiftLiveError Batch := do
  let key := RunFile.outpoint_key update.1
  let b ← enter_vacant limits key (get_row b.coins key) b
  let b ← replace_survivor height key update.2 b
  reject (limits.max_survivor_entries < b.next.survivor_entries
    ∨ limits.max_survivor_encoded_bytes < b.next.survivor_bytes) .ByteLimit
  pure b

end

section

variable [PublicKeys]

def push_undo_coin (coin : Coin) : Except SwiftLiveError (List UInt8) := do
  reject (money_range coin.out.value = false ∨ MAX_AUDIT_SCRIPT_BYTES < coin.out.script_pubkey.length) .ByteLimit
  let encoded := encode_coin coin
  reject (U32_MAX < encoded.length) .Overflow
  pure (le 4 encoded.length ++ encoded)

def push_spent (out : List UInt8) (coin : Coin) : Except SwiftLiveError (List UInt8) := do
  let coin ← push_undo_coin coin
  pure (out ++ coin)

def push_overwritten (out : List UInt8) (overwritten : OutPoint × Coin) : Except SwiftLiveError (List UInt8) := do
  let coin ← push_undo_coin overwritten.2
  pure (out ++ RunFile.key_bytes (RunFile.outpoint_key overwritten.1) ++ coin)

def push_tx_undo (sofar : ℕ × List UInt8) (tx : TxUndo) : Except SwiftLiveError (ℕ × List UInt8) := do
  let event_count := sofar.1 + tx.spent.length + tx.overwritten.length
  reject (MAX_BLOCK_EVENTS < event_count) .EventLimit
  reject (U32_MAX < tx.spent.length) .Overflow
  let out ← tx.spent.foldlM push_spent (sofar.2 ++ le 4 tx.spent.length)
  reject (U32_MAX < tx.overwritten.length) .Overflow
  let out ← tx.overwritten.foldlM push_overwritten (out ++ le 4 tx.overwritten.length)
  reject (64 * 1024 * 1024 < out.length) .ByteLimit
  pure (event_count, out)

variable [Platform] (sha256 : List UInt8 → Hash256)

def encode_full_undo (previous : BlockHash) (block : Block) (undo : BlockUndo) :
    Except SwiftLiveError (List UInt8) := do
  reject (MAX_BLOCK_EVENTS < undo.txs.length ∨ block.header.prev_block_hash ≠ previous
    ∨ BlockFiles.MAX_BLOCK_SERIALIZED_SIZE < block.size_with_witness) .EventLimit
  let body := block.encode
  reject (U32_MAX < body.length) .Overflow
  reject (U32_MAX < undo.txs.length) .Overflow
  let head := FULL_UNDO_MAGIC ++ previous.to_bytes ++ (Platform.block_hash block.header).to_bytes ++
    le 4 body.length ++
    body ++ le 4 undo.txs.length
  let (_, out) ← undo.txs.foldlM push_tx_undo (0, head)
  pure (out ++ checksum sha256 FULL_UNDO_MAGIC out)

def encode_retained (previous : BlockHash) : Option (Block × BlockUndo) → Except SwiftLiveError (Option (List UInt8))
  | some (block, undo) => do
    let encoded ← encode_full_undo sha256 previous block undo
    pure (some encoded)
  | none => pure none

omit [PublicKeys] [Platform] in
def encode_tx_meta (hash : BlockHash) (n_tx n_chain_tx : ℕ) : List UInt8 :=
  let out := TX_META_MAGIC ++ hash.to_bytes ++ le 4 n_tx ++ le 8 n_chain_tx
  out ++ checksum sha256 TX_META_MAGIC out

structure Application where
  height : ℕ
  previous_hash : BlockHash
  block_hash : BlockHash
  events : List LiveEvent
  audit_snapshot : Option (List UInt8)
  stump_snapshot : Option (List UInt8)
  full_block : Option (Block × BlockUndo)
  tx_meta : Option (ℕ × ℕ)
  survivor_updates : List (OutPoint × Option Coin)

/-- The rounds of `while height - undo_floor > max_reorg_depth`; each raises the floor by one. -/
def expire_journals : ℕ → Table ℕ (List UInt8) → State → Except SwiftLiveError (Table ℕ (List UInt8) × State)
  | 0, undo, next => .ok (undo, next)
  | rounds + 1, undo, next =>
    let prune_height := next.undo_floor + 1
    match undo.lookup prune_height with
    | none => .error .Corrupt
    | some old_journal => do
      let old_size := 4 + old_journal.length
      reject (next.undo_bytes < old_size) .Corrupt
      expire_journals rounds (undo.erase prune_height)
        { next with undo_bytes := next.undo_bytes - old_size, undo_floor := prune_height }

def prune_block_undo (binding : SwiftLiveBinding) (height : ℕ) (block_undo : Table ℕ (List UInt8)) (next : State) :
    Except SwiftLiveError (Table ℕ (List UInt8) × State) :=
  let prune_height := height - DEFAULT_REORG_DEPTH
  if binding.start_height < prune_height then
    match block_undo.lookup prune_height with
    | none => .ok (block_undo, next)
    | some old => do
      reject (next.undo_bytes < 4 + old.length) .Corrupt
      pure (block_undo.erase prune_height, { next with undo_bytes := next.undo_bytes - (4 + old.length) })
  else .ok (block_undo, next)

def insert_new (table : Table ℕ (List UInt8)) (height : ℕ) : Option (List UInt8) →
    Except SwiftLiveError (Table ℕ (List UInt8))
  | none => .ok table
  | some encoded => do
    reject (table.lookup height).isSome .Corrupt
    pure (table.insert height encoded)

namespace SwiftLiveIndex

def block_transaction (self : SwiftLiveIndex) (a : Application)
    (encoded_full_undo encoded_tx_meta : Option (List UInt8)) :
    Except SwiftLiveError (Unit × Database × State) := do
  let prior_audit_state := self.db.audit
  let prior_stump_state := self.db.stump
  reject ((a.stump_snapshot.any fun snapshot => 4096 < snapshot.length)
    ∨ a.stump_snapshot.isSome ≠ prior_stump_state.isSome
    ∨ (a.full_block.isNone ∧ self.db.block_undo.keys.length ≠ 0)
    ∨ (a.tx_meta.isNone ∧ self.db.tx_meta.keys.length ≠ 0)) .BindingMismatch
  let journal_value_bytes := 108 + (prior_audit_state.getD []).length + (prior_stump_state.getD []).length
  reject (over_journal self.limits self.state journal_value_bytes) .ByteLimit
  reject (self.db.metadata ≠ (self.binding, self.limits, self.state)) .Corrupt
  let b ← a.events.foldlM (apply_event self.limits a.height)
    ⟨self.db.coins, self.db.survivors, ∅, journal_value_bytes, self.state⟩
  let b ← a.survivor_updates.foldlM (apply_survivor self.limits a.height) b
  reject (a.audit_snapshot.any fun snapshot => snapshot.length ≠ 321) .Corrupt
  let journal ← encode_journal sha256 self.state.hash a.block_hash b.before prior_audit_state prior_stump_state
  let next := { b.next with undo_bytes := b.next.undo_bytes + (4 + journal.length) }
  let undo ← insert_new self.db.undo a.height (some journal)
  let tx_meta ← insert_new self.db.tx_meta a.height encoded_tx_meta
  let block_undo ← insert_new self.db.block_undo a.height encoded_full_undo
  let next := { next with
    undo_bytes := next.undo_bytes + (encoded_full_undo.map fun encoded => 4 + encoded.length).getD 0 }
  let (block_undo, next) ← prune_block_undo self.binding a.height block_undo next
  let (undo, next) ← expire_journals (a.height - next.undo_floor - self.limits.max_reorg_depth) undo next
  reject (self.limits.max_undo_encoded_bytes < next.undo_bytes) .ByteLimit
  let next := { next with height := a.height, hash := a.block_hash }
  pure ((), {
    coins := b.coins
    metadata := (self.binding, self.limits, next)
    undo
    audit := a.audit_snapshot.or prior_audit_state
    stump := a.stump_snapshot.or prior_stump_state
    block_undo
    tx_meta
    survivors := b.survivors }, next)

def checked_application (self : SwiftLiveIndex) (a : Application) :
    Except SwiftLiveError (Unit × Database × State) := do
  reject (U32_MAX < self.state.height + 1) .Overflow
  reject (a.height ≠ self.state.height + 1 ∨ a.previous_hash ≠ self.state.hash
    ∨ self.binding.target_height < a.height) .TipMismatch
  reject (self.state.complete = true) .TipMismatch
  reject (self.limits.max_block_events < a.events.length) .EventLimit
  reject (a.height = self.binding.target_height ∧ a.block_hash ≠ self.binding.target_hash) .CheckpointMismatch
  let encoded_full_undo ← encode_retained sha256 a.previous_hash a.full_block
  let encoded_tx_meta := a.tx_meta.map fun (n_tx, n_chain_tx) => encode_tx_meta sha256 a.block_hash n_tx n_chain_tx
  reject (a.full_block.isSome ≠ a.tx_meta.isSome) .BindingMismatch
  block_transaction sha256 self a encoded_full_undo encoded_tx_meta

def committed (self : SwiftLiveIndex) {α : Type} :
    Except SwiftLiveError (α × Database × State) → Except SwiftLiveError α × SwiftLiveIndex
  | .ok (a, db, next) => (.ok a, { self with db, state := next })
  | .error e => (.error e, self)

def apply_block_inner (self : SwiftLiveIndex) (a : Application) : Except SwiftLiveError Unit × SwiftLiveIndex :=
  self.committed (checked_application sha256 self a)

def apply_block (self : SwiftLiveIndex) (height : ℕ) (previous_hash block_hash : BlockHash)
    (events : List LiveEvent) :
    Except SwiftLiveError Unit × SwiftLiveIndex :=
  apply_block_inner sha256 self ⟨height, previous_hash, block_hash, events, none, none, none, none, []⟩

def apply_full_validated_block (self : SwiftLiveIndex) (height : ℕ) (previous_hash : BlockHash) (block : Block)
    (undo : BlockUndo) (n_chain_tx : ℕ) (events : List LiveEvent) (audit_snapshot : List UInt8)
    (stump_snapshot : Option (List UInt8)) (survivor_updates : List (OutPoint × Option Coin)) :
    Except SwiftLiveError Unit × SwiftLiveIndex :=
  if U32_MAX < block.transactions.length then (.error .Overflow, self)
  else apply_block_inner sha256 self ⟨height, previous_hash, Platform.block_hash block.header, events,
    some audit_snapshot, stump_snapshot, some (block, undo), some (block.transactions.length, n_chain_tx),
      survivor_updates⟩

end SwiftLiveIndex

end

structure Reverting where
  coins : Table RunKey (List UInt8)
  survivors : Table RunKey (List UInt8)
  next : State

def revert_live (key : RunKey) (old : Option (List UInt8)) (r : Reverting) : Except SwiftLiveError Reverting := do
  match ← get_row r.coins key, old with
  | none, none => pure r
  | some _, none => do
    reject (r.next.live_entries < 1) .Corrupt
    reject (r.next.live_bytes < 36 + ROW_LEN) .Corrupt
    pure { r with
      coins := r.coins.erase key
      next := { r.next with
        live_entries := r.next.live_entries - 1, live_bytes := r.next.live_bytes - (36 + ROW_LEN) } }
  | none, some old => do
    reject (decode_row old).isNone .Corrupt
    pure { r with
      coins := r.coins.insert key old
      next := { r.next with
        live_entries := r.next.live_entries + 1, live_bytes := r.next.live_bytes + (36 + ROW_LEN) } }
  | some _, some old => do
    reject (decode_row old).isNone .Corrupt
    pure { r with coins := r.coins.insert key old }

def revert_survivor (key : RunKey) (old : Option (List UInt8)) (r : Reverting) : Except SwiftLiveError Reverting :=
  match r.survivors.lookup key, old with
  | none, none => pure r
  | some row, none => do
    reject (r.next.survivor_entries < 1) .Corrupt
    reject (r.next.survivor_bytes < 36 + row.length) .Corrupt
    pure { r with
      survivors := r.survivors.erase key
      next := { r.next with
        survivor_entries := r.next.survivor_entries - 1
        survivor_bytes := r.next.survivor_bytes - (36 + row.length) } }
  | none, some old => pure { r with
      survivors := r.survivors.insert key old
      next := { r.next with
        survivor_entries := r.next.survivor_entries + 1
        survivor_bytes := r.next.survivor_bytes + (36 + old.length) } }
  | some current, some old => do
    reject (r.next.survivor_bytes < 36 + current.length) .Overflow
    pure { r with
      survivors := r.survivors.insert key old
      next := { r.next with
        survivor_bytes := r.next.survivor_bytes - (36 + current.length) + (36 + old.length) } }

def revert_row (r : Reverting) (row : RunKey × BeforeImage) : Except SwiftLiveError Reverting := do
  let r ← revert_live row.1 row.2.live r
  revert_survivor row.1 row.2.survivor r

namespace SwiftLiveIndex

section

variable [PublicKeys] (sha256 : List UInt8 → Hash256)

def rewind_transaction (self : SwiftLiveIndex) (expected_tip : BlockHash) :
    Except SwiftLiveError (BlockHash × Database × State) := do
  reject (self.state.height ≤ self.state.undo_floor ∨ self.state.hash ≠ expected_tip) .RewindMismatch
  let bytes ← (self.db.undo.lookup self.state.height).elim (.error .Corrupt) .ok
  let (previous_hash, block_hash, audit_before, stump_before, before) ← decode_journal sha256 bytes
  reject (block_hash ≠ self.state.hash) .RewindMismatch
  reject (self.state.undo_bytes < 4 + bytes.length) .Corrupt
  let next := { self.state with undo_bytes := self.state.undo_bytes - (4 + bytes.length) }
  let r ← before.foldlM revert_row ⟨self.db.coins, self.db.survivors, next⟩
  let removed := ((self.db.block_undo.lookup self.state.height).map fun removed => 4 + removed.length).getD 0
  reject (r.next.undo_bytes < removed) .Corrupt
  let next := { r.next with
    undo_bytes := r.next.undo_bytes - removed, height := r.next.height - 1, hash := previous_hash, complete := false }
  pure (previous_hash, {
    coins := r.coins
    metadata := (self.binding, self.limits, next)
    undo := self.db.undo.erase self.state.height
    audit := audit_before
    stump := stump_before
    block_undo := self.db.block_undo.erase self.state.height
    tx_meta := self.db.tx_meta.erase self.state.height
    survivors := r.survivors }, next)

def rewind_one (self : SwiftLiveIndex) (expected_tip : BlockHash) :
    Except SwiftLiveError BlockHash × SwiftLiveIndex :=
  self.committed (rewind_transaction sha256 self expected_tip)

end

def initialize_stump_snapshot (self : SwiftLiveIndex) (snapshot : List UInt8) :
    Except SwiftLiveError Unit × SwiftLiveIndex :=
  self.committed do
    reject (self.state.height ≠ self.binding.start_height ∨ 4096 < snapshot.length) .BindingMismatch
    reject self.db.stump.isSome .BindingMismatch
    pure ((), { self.db with stump := some snapshot }, self.state)

def mark_complete (self : SwiftLiveIndex) (audit_snapshot : List UInt8) :
    Except SwiftLiveError Unit × SwiftLiveIndex :=
  self.committed do
    reject (self.state.height ≠ self.binding.target_height ∨ self.state.hash ≠ self.binding.target_hash
      ∨ audit_snapshot.length ≠ 321) .CheckpointMismatch
    let next := { self.state with complete := true }
    pure ((), { self.db with audit := some audit_snapshot, metadata := (self.binding, self.limits, next) }, next)

def reopened (self : SwiftLiveIndex) : SwiftLiveIndex := { self with state := self.db.metadata.2.2 }

end SwiftLiveIndex

end SwiftLive

end AvilaNode
