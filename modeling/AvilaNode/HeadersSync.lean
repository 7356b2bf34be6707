import AvilaNode.BlockChecks
import AvilaNode.ByteStrings
import AvilaNode.Transitions
import AvilaNode.HeaderTree

/-! The two-pass download of a header chain that has not proved its work yet. -/

namespace AvilaNode

open GuardedLoop

variable [Platform]

structure HeadersSyncParams where
  commitment_period : ℕ
  redownload_buffer_size : ℕ
deriving DecidableEq, Repr

def HeadersSyncParams.for_network : Network → HeadersSyncParams
  | .Mainnet => ⟨641, 15218⟩
  | .Testnet4 => ⟨606, 16092⟩
  | .Signet => ⟨620, 15724⟩
  | .Regtest => ⟨275, 7017⟩

/-- `timespan` times the old target, cut at the limit and rounded as a compact target rounds it. -/
def clamp_target (params : Params) (old_target timespan : ℕ) : ℕ :=
  (to_compact (min (old_target * timespan % 2 ^ 256 / params.pow_target_timespan) params.pow_limit)).expand.value

def permitted_difficulty_transition (params : Params) (height : ℕ) (old_bits new_bits : CompactTarget) : Bool :=
  let interval := params.difficulty_adjustment_interval
  if params.allow_min_difficulty_blocks then true
  else if interval = 0 ∨ height % interval ≠ 0 then old_bits == new_bits
  else
    let observed_new_target := new_bits.expand.value
    let old_target := old_bits.expand.value
    if clamp_target params old_target (params.pow_target_timespan * 4) < observed_new_target then false
    else if observed_new_target < clamp_target params old_target (params.pow_target_timespan / 4) then false
    else true

def commitment_bit (salt : List UInt8) (hash : BlockHash) : Bool :=
  (Platform.sha256d (salt ++ hash.to_bytes)).to_bytes.headD 0 &&& 1 == 1

inductive Phase where
  | Presync
  | Redownload
  | Final
deriving DecidableEq, Repr

structure ProcessingResult where
  pow_validated_headers : List BlockHeader
  success : Bool
  request_more : Bool
deriving DecidableEq, Repr

structure HeadersSyncState where
  params : Params
  sync_params : HeadersSyncParams
  minimum_required_work : ℕ
  salt : List UInt8
  commit_offset : ℕ
  chain_start_hash : BlockHash
  chain_start_height : ℕ
  chain_start_bits : CompactTarget
  chain_start_work : ℕ
  current_chain_work : ℕ
  header_commitments : List Bool
  max_commitments : ℕ
  last_header_received : BlockHeader
  current_height : ℕ
  redownloaded_headers : List BlockHeader
  redownload_last_height : ℕ
  redownload_last_hash : BlockHash
  redownload_chain_work : ℕ
  process_all_remaining : Bool
  phase : Phase

namespace HeadersSyncState

def new (tree : HeaderTree) (chain_start : HeaderNode) (params : Params) (sync_params : HeadersSyncParams)
    (minimum_required_work now : ℕ) (salt : List UInt8) : HeadersSyncState :=
  let mtp := (tree.median_time_past chain_start.hash).getD chain_start.header.time
  let max_seconds_since_start := now - mtp + MAX_FUTURE_BLOCK_TIME
  { params, sync_params, minimum_required_work, salt
    commit_offset := ByteStrings.value (salt.take 8) % sync_params.commitment_period
    chain_start_hash := chain_start.hash
    chain_start_height := chain_start.height
    chain_start_bits := chain_start.header.bits
    chain_start_work := chain_start.chainwork
    current_chain_work := chain_start.chainwork
    header_commitments := []
    max_commitments := max_seconds_since_start * 6 / sync_params.commitment_period
    last_header_received := chain_start.header
    current_height := chain_start.height
    redownloaded_headers := []
    redownload_last_height := chain_start.height
    redownload_last_hash := chain_start.hash
    redownload_chain_work := chain_start.chainwork
    process_all_remaining := false
    phase := .Presync }

def is_final (s : HeadersSyncState) : Bool := s.phase == .Final

def finalize (s : HeadersSyncState) : HeadersSyncState :=
  { s with header_commitments := [], redownloaded_headers := [], phase := .Final }

def commits (s : HeadersSyncState) (height : ℕ) : Bool := height % s.sync_params.commitment_period == s.commit_offset

def validate_and_process_single_header (s : HeadersSyncState) (current : BlockHeader) : Bool × HeadersSyncState :=
  let next_height := s.current_height + 1
  if !permitted_difficulty_transition s.params next_height s.last_header_received.bits current.bits then (false, s)
  else
    let commit := s.commits next_height
    let s := if commit then
        { s with header_commitments := s.header_commitments ++ [commitment_bit s.salt current.hash] }
      else s
    if commit ∧ s.max_commitments < s.header_commitments.length then (false, s)
    else
      match Work.checked_add s.current_chain_work (Work.from_compact current.bits) with
      | none => (false, s)
      | some current_chain_work =>
        (true, { s with current_chain_work, last_header_received := current, current_height := next_height })

def start_redownload (s : HeadersSyncState) : HeadersSyncState :=
  { s with
    redownloaded_headers := []
    redownload_last_height := s.chain_start_height
    redownload_last_hash := s.chain_start_hash
    redownload_chain_work := s.chain_start_work
    phase := .Redownload }

def validate_and_store_headers_commitments (s : HeadersSyncState) (headers : List BlockHeader) :
    Bool × HeadersSyncState :=
  if (headers.head?.map BlockHeader.prev_block_hash) ≠ some s.last_header_received.hash then (false, s)
  else
    match loop validate_and_process_single_header s headers with
    | (false, s) => (false, s)
    | (true, s) => (true, if s.minimum_required_work ≤ s.current_chain_work then s.start_redownload else s)

def check_commitment (s : HeadersSyncState) (height : ℕ) (hash : BlockHash) : Bool × HeadersSyncState :=
  if !s.process_all_remaining && s.commits height then
    match s.header_commitments with
    | [] => (false, s)
    | expected :: header_commitments => (commitment_bit s.salt hash == expected, { s with header_commitments })
  else (true, s)

def validate_and_store_redownloaded_header (s : HeadersSyncState) (header : BlockHeader) : Bool × HeadersSyncState :=
  let next_height := s.redownload_last_height + 1
  let previous_bits := (s.redownloaded_headers.getLast?.map BlockHeader.bits).getD s.chain_start_bits
  if header.prev_block_hash ≠ s.redownload_last_hash then (false, s)
  else if !permitted_difficulty_transition s.params next_height previous_bits header.bits then (false, s)
  else
    match Work.checked_add s.redownload_chain_work (Work.from_compact header.bits) with
    | none => (false, s)
    | some redownload_chain_work =>
      let process_all_remaining :=
        s.process_all_remaining || decide (s.minimum_required_work ≤ redownload_chain_work)
      match check_commitment { s with redownload_chain_work, process_all_remaining } next_height header.hash with
      | (false, s) => (false, s)
      | (true, s) =>
        (true, { s with
          redownloaded_headers := s.redownloaded_headers ++ [header]
          redownload_last_height := next_height
          redownload_last_hash := header.hash })

def ready (s : HeadersSyncState) : ℕ :=
  if s.process_all_remaining then s.redownloaded_headers.length
  else s.redownloaded_headers.length - s.sync_params.redownload_buffer_size

def pop_headers_ready_for_acceptance (s : HeadersSyncState) : List BlockHeader × HeadersSyncState :=
  (s.redownloaded_headers.take s.ready, { s with redownloaded_headers := s.redownloaded_headers.drop s.ready })

def process_presync (s : HeadersSyncState) (received : List BlockHeader) (full_headers_message : Bool) :
    ProcessingResult × HeadersSyncState :=
  let (success, s) := s.validate_and_store_headers_commitments received
  (⟨[], success, success && (full_headers_message || s.phase == .Redownload)⟩, s)

def process_redownload (s : HeadersSyncState) (received : List BlockHeader) (full_headers_message : Bool) :
    ProcessingResult × HeadersSyncState :=
  match loop validate_and_store_redownloaded_header s received with
  | (false, s) => (⟨[], false, false⟩, s)
  | (true, s) =>
    let (headers, s) := s.pop_headers_ready_for_acceptance
    (⟨headers, true, !(s.redownloaded_headers.isEmpty && s.process_all_remaining) && full_headers_message⟩, s)

def finish (p : ProcessingResult × HeadersSyncState) : ProcessingResult × HeadersSyncState :=
  (p.1, if p.1.success && p.1.request_more then p.2 else p.2.finalize)

def process_next_headers (s : HeadersSyncState) (received : List BlockHeader) (full_headers_message : Bool) :
    ProcessingResult × HeadersSyncState :=
  if received.isEmpty then (⟨[], false, false⟩, s)
  else
    match s.phase with
    | .Presync => finish (s.process_presync received full_headers_message)
    | .Redownload => finish (s.process_redownload received full_headers_message)
    | .Final => (⟨[], false, false⟩, s)

end HeadersSyncState

end AvilaNode
