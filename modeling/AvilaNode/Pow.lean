import AvilaNode.Primitives
import Mathlib.Data.Nat.Size

/-! Compact targets, per-block work, the retarget schedule, and the timestamp rules of a header. -/

namespace AvilaNode

abbrev CompactTarget := BitVec 32

structure ExpandedTarget where
  value : ℕ
  negative : Bool
  overflow : Bool
deriving DecidableEq, Repr

def CompactTarget.expand (bits : CompactTarget) : ExpandedTarget :=
  let compact := bits.toNat
  let size := compact >>> 24
  let word := if size ≤ 3 then (compact &&& 0x007fffff) >>> (8 * (3 - size)) else compact &&& 0x007fffff
  { value := if size ≤ 3 then word else (word <<< (8 * (size - 3))) % 2 ^ 256
    negative := word != 0 && compact &&& 0x00800000 != 0
    overflow := word != 0 && (decide (34 < size) || (decide (0xff < word) && decide (33 < size))
      || (decide (0xffff < word) && decide (32 < size))) }

def to_compact (value : ℕ) : CompactTarget :=
  let size := (value.size + 7) / 8
  let compact := if size ≤ 3 then (value % 2 ^ 64) <<< (8 * (3 - size))
    else (value >>> (8 * (size - 3))) % 2 ^ 64
  if compact &&& 0x00800000 != 0 then BitVec.ofNat 32 ((compact >>> 8) ||| ((size + 1) <<< 24))
  else BitVec.ofNat 32 (compact ||| (size <<< 24))

def Work.ZERO : ℕ := 0

def Work.from_compact (bits : CompactTarget) : ℕ :=
  let expanded := bits.expand
  if expanded.negative || expanded.overflow || expanded.value == 0 then Work.ZERO
  else if 2 ^ 256 ≤ expanded.value + 1 then Work.ZERO
  else ((2 ^ 256 - 1 - expanded.value) / (expanded.value + 1) + 1) % 2 ^ 256

def Work.checked_add (a b : ℕ) : Option ℕ := if a + b < 2 ^ 256 then some (a + b) else none

def Params.difficulty_adjustment_interval (params : Params) : ℕ :=
  params.pow_target_timespan / params.pow_target_spacing

def Params.pow_limit_compact (params : Params) : CompactTarget := to_compact params.pow_limit

def Hash256.le_value (hash : Hash256) : ℕ :=
  (List.range 32).foldl (fun value i => value * 256 + hash.toNat / 256 ^ i % 256) 0

inductive PowError where
  | NegativeTarget (bits : CompactTarget)
  | OverflowTarget (bits : CompactTarget)
  | ZeroTarget (bits : CompactTarget)
  | TargetAboveLimit (bits : CompactTarget)
  | InsufficientWork (hash : BlockHash) (bits : CompactTarget)
  | UnknownAncestor (hash : BlockHash)
  | DegenerateDifficultyParams
deriving DecidableEq, Repr

def check_proof_of_work (hash : BlockHash) (bits : CompactTarget) (params : Params) : Except PowError Unit :=
  let expanded := bits.expand
  if expanded.negative then .error (.NegativeTarget bits)
  else if expanded.overflow then .error (.OverflowTarget bits)
  else if expanded.value = 0 then .error (.ZeroTarget bits)
  else if params.pow_limit < expanded.value then .error (.TargetAboveLimit bits)
  else if expanded.value < Hash256.le_value hash then .error (.InsufficientWork hash bits)
  else .ok ()

def last_real_header (ancestor : BlockHash → Option BlockHeader) (interval : ℕ) (limit : CompactTarget) :
    ℕ → BlockHeader → Except PowError BlockHeader
  | 0, header => .ok header
  | height + 1, header =>
    if (height + 1) % interval ≠ 0 ∧ header.bits = limit then
      match ancestor header.prev_block_hash with
      | some parent => last_real_header ancestor interval limit height parent
      | none => .error (.UnknownAncestor header.prev_block_hash)
    else .ok header

def window_first (ancestor : BlockHash → Option BlockHeader) : ℕ → BlockHeader → Except PowError BlockHeader
  | 0, header => .ok header
  | steps + 1, header =>
    match ancestor header.prev_block_hash with
    | some parent => window_first ancestor steps parent
    | none => .error (.UnknownAncestor header.prev_block_hash)

def retarget (base_bits : CompactTarget) (last : BlockHeader) (window_first_time : ℕ) (params : Params) :
    CompactTarget :=
  if params.no_retargeting then last.bits
  else
    let timespan := min (params.pow_target_timespan : ℤ) I64_MAX
    let actual := (last.time : ℤ) - window_first_time
    let clamped := max (timespan / 4) (min actual (min (timespan * 4) I64_MAX))
    let product := (CompactTarget.expand base_bits).value * clamped.toNat % 2 ^ 256
    to_compact (min (product / params.pow_target_timespan) params.pow_limit)

def required_bits (last_height : ℕ) (last : BlockHeader) (new_time : ℕ) (params : Params)
    (ancestor : BlockHash → Option BlockHeader) : Except PowError CompactTarget :=
  let interval := params.difficulty_adjustment_interval
  if interval = 0 ∨ params.pow_target_timespan = 0 then .error .DegenerateDifficultyParams
  else if (last_height + 1) % interval ≠ 0 then
    if params.allow_min_difficulty_blocks then
      -- `saturating_add` of a saturated product: nothing exceeds it at the bound either
      if min (last.time + min (params.pow_target_spacing * 2) (2 ^ 64 - 1)) (2 ^ 64 - 1) < new_time then
        .ok params.pow_limit_compact
      else
        (last_real_header ancestor interval params.pow_limit_compact last_height last).map BlockHeader.bits
    else .ok last.bits
  else
    match window_first ancestor (min (interval - 1) (last_height + 1)) last with
    | .error e => .error e
    | .ok first => .ok (retarget (if params.enforce_bip94 then first.bits else last.bits) last first.time params)

inductive Network where
  | Mainnet
  | Testnet4
  | Signet
  | Regtest
deriving DecidableEq, Repr

def Network.genesis_bits : Network → CompactTarget
  | Mainnet => 0x1d00ffff
  | Testnet4 => 0x1d00ffff
  | Signet => 0x1e0377ae
  | Regtest => 0x207fffff

def MEDIAN_TIME_SPAN : ℕ := 11

def MAX_FUTURE_BLOCK_TIME : ℕ := 2 * 60 * 60

def MAX_TIMEWARP : ℕ := 600

def median_time_past (times : List ℕ) : ℕ :=
  let sorted := (times.take MEDIAN_TIME_SPAN).insertionSort (· ≤ ·)
  sorted.getD (sorted.length / 2) 0

inductive TimeError where
  | TooOld (time median_past : ℕ)
  | Timewarp (time min_time : ℕ)
  | TooNew (time now : ℕ)
deriving DecidableEq, Repr

def check_block_time (time median_past now : ℕ) (timewarp_min : Option ℕ) : Except TimeError Unit :=
  if time ≤ median_past then .error (.TooOld time median_past)
  else
    match timewarp_min.filter fun min_time => time < min_time with
    | some min_time => .error (.Timewarp time min_time)
    | none => if now + MAX_FUTURE_BLOCK_TIME < time then .error (.TooNew time now) else .ok ()

end AvilaNode
