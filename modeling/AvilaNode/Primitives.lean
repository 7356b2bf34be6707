import Mathlib.Data.BitVec
import Mathlib.Tactic.NormNum

/-! Transactions, blocks, parameters, and the integer arithmetic the node does on amounts. -/

namespace AvilaNode

abbrev Hash256 := BitVec 256
abbrev Txid := Hash256
abbrev Wtxid := Hash256
abbrev BlockHash := Hash256
abbrev Script := List UInt8
abbrev ScriptFlags := ℕ

structure OutPoint where
  txid : Txid
  -- every output count a decoder accepts is below 2^32, so `vout as u32` never wraps
  vout : ℕ
deriving DecidableEq, Repr

def OutPoint.NULL : OutPoint := ⟨0, 0xffffffff⟩

def OutPoint.is_null (op : OutPoint) : Bool := op == OutPoint.NULL

/-- The byte order of `outpoint_key`: txid bytes, then big-endian vout. -/
def OutPoint.key_lt (a b : OutPoint) : Bool :=
  decide (a.txid.toNat < b.txid.toNat) || (a.txid == b.txid && decide (a.vout < b.vout))

variable {a b : OutPoint}

theorem OutPoint.key_lt_iff : a.key_lt b = true ↔
    a.txid.toNat < b.txid.toNat ∨ (a.txid = b.txid ∧ a.vout < b.vout) := by
  simp [key_lt]

theorem OutPoint.key_lt_irrefl (a : OutPoint) : a.key_lt a = false := by
  simp [key_lt]

theorem OutPoint.key_lt_asymm (h : a.key_lt b = true) : b.key_lt a = false := by
  rw [← Bool.not_eq_true, key_lt_iff]
  rcases key_lt_iff.mp h with h | ⟨h, hv⟩
  · rintro (hc | ⟨hc, -⟩)
    · omega
    · rw [hc] at h; omega
  · rintro (hc | ⟨-, hc⟩)
    · rw [h] at hc; omega
    · omega

theorem OutPoint.key_lt_trans {a b c : OutPoint} (hab : a.key_lt b = true) (hbc : b.key_lt c = true) :
    a.key_lt c = true := by
  rw [key_lt_iff] at *
  rcases hab with hab | ⟨hab, hav⟩ <;> rcases hbc with hbc | ⟨hbc, hbv⟩
  · exact Or.inl (by omega)
  · exact Or.inl (hbc ▸ hab)
  · exact Or.inl (hab ▸ hbc)
  · exact Or.inr ⟨hab.trans hbc, by omega⟩

theorem OutPoint.key_lt_total (h : a ≠ b) : a.key_lt b = true ∨ b.key_lt a = true := by
  rw [key_lt_iff, key_lt_iff]
  by_cases ht : a.txid = b.txid
  · have hv : a.vout ≠ b.vout := fun hv => h (by cases a; cases b; simp_all)
    rcases Nat.lt_or_gt_of_ne hv with hv | hv
    · exact Or.inl (Or.inr ⟨ht, hv⟩)
    · exact Or.inr (Or.inr ⟨ht.symm, hv⟩)
  · have hn : a.txid.toNat ≠ b.txid.toNat := fun hn => ht (BitVec.eq_of_toNat_eq hn)
    rcases Nat.lt_or_gt_of_ne hn with hn | hn
    · exact Or.inl (Or.inl hn)
    · exact Or.inr (Or.inl hn)

structure TxIn where
  previous_output : OutPoint
  script_sig : Script
  sequence : ℕ
  witness : List (List UInt8)
deriving DecidableEq, Repr

structure TxOut where
  value : ℤ
  script_pubkey : Script
deriving DecidableEq, Repr

structure Transaction where
  version : ℕ
  inputs : List TxIn
  outputs : List TxOut
  lock_time : ℕ
deriving DecidableEq, Repr

def Transaction.is_coinbase (tx : Transaction) : Bool :=
  match tx.inputs with
  | [input] => input.previous_output.is_null
  | _ => false

structure BlockHeader where
  version : ℤ
  prev_block_hash : BlockHash
  merkle_root : Hash256
  time : ℕ
  bits : BitVec 32
  nonce : ℕ
deriving DecidableEq, Repr

structure Block where
  header : BlockHeader
  transactions : List Transaction
deriving DecidableEq, Repr

structure Coin where
  out : TxOut
  height : ℕ
  coinbase : Bool
deriving DecidableEq, Repr

/-- What one transaction took from the set: the coins it spent, in input order, and the
coins its outputs overwrote. -/
structure TxUndo where
  spent : List Coin
  overwritten : List (OutPoint × Coin)
deriving DecidableEq, Repr

structure BlockUndo where
  txs : List TxUndo
deriving DecidableEq, Repr

structure Params where
  genesis_header : BlockHeader
  pow_limit : ℕ
  pow_target_spacing : ℕ
  pow_target_timespan : ℕ
  allow_min_difficulty_blocks : Bool
  no_retargeting : Bool
  subsidy_halving_interval : ℕ
  bip34_height : ℕ
  bip34_hash : Option BlockHash
  bip65_height : ℕ
  bip66_height : ℕ
  csv_height : ℕ
  segwit_height : ℕ
  script_flag_exceptions : List (BlockHash × ScriptFlags)
  enforce_bip94 : Bool
  signet_blocks : Bool
  minimum_chain_work : ℕ
  assume_valid : Option BlockHash
  genesis_block : Option Block
deriving DecidableEq

structure ScriptError where
  code : ℕ
deriving DecidableEq, Repr

/-- What the node takes from outside the modelled code: hashing, the script interpreter's
verdicts and operation counts, and the environment switches read at startup. -/
class Platform where
  txid : Transaction → Txid
  wtxid : Transaction → Wtxid
  block_hash : BlockHeader → BlockHash
  sha256d : List UInt8 → Hash256
  check_signet_block_solution : Block → Params → Bool
  check_input_scripts : Transaction → List TxOut → ScriptFlags → Option ScriptError
  sig_ops : Script → ℕ
  p2sh_sig_ops : Script → Script → ℕ
  count_witness_sig_ops : Script → Script → List (List UInt8) → ScriptFlags → ℕ
  encoded_coin_len : Coin → ℕ
  clean_cache_enabled : Bool
  prevout_prefetch_workers : ℕ

/-- A platform to evaluate on: a transaction is named by its lock time, a header by its nonce, and every
script passes. -/
@[reducible] def Platform.sample : Platform where
  txid tx := BitVec.ofNat 256 tx.lock_time
  wtxid tx := BitVec.ofNat 256 tx.lock_time
  block_hash header := BitVec.ofNat 256 header.nonce
  sha256d bytes := BitVec.ofNat 256 (bytes.foldl (fun value byte => value * 256 + byte.toNat) 0)
  check_signet_block_solution _ _ := true
  check_input_scripts _ _ _ := none
  sig_ops _ := 0
  p2sh_sig_ops _ _ := 0
  count_witness_sig_ops _ _ _ _ := 0
  encoded_coin_len coin := 12 + coin.out.script_pubkey.length
  clean_cache_enabled := true
  prevout_prefetch_workers := 0

def sample_params : Params where
  genesis_header := ⟨1, 0, 0, 1, 0x207fffff, 1⟩
  pow_limit := 0x7fffff <<< 232
  pow_target_spacing := 600
  pow_target_timespan := 1209600
  allow_min_difficulty_blocks := false
  no_retargeting := true
  subsidy_halving_interval := 210000
  bip34_height := 0
  bip34_hash := some 1
  bip65_height := 1
  bip66_height := 1
  csv_height := 1
  segwit_height := 1
  script_flag_exceptions := []
  enforce_bip94 := false
  signet_blocks := false
  minimum_chain_work := 0
  assume_valid := none
  genesis_block := none

def sample_header (prev : BlockHash) (nonce : ℕ) (merkle_root : Hash256) : BlockHeader :=
  ⟨4, prev, merkle_root, nonce, 0x207fffff, nonce⟩

def sample_outpoint : OutPoint := ⟨1, 0⟩

def sample_coin : Coin := ⟨⟨5, []⟩, 1, false⟩

def MAX_SCRIPT_SIZE : ℕ := 10000

def OP_RETURN : UInt8 := 0x6a

def is_unspendable (script : Script) : Bool :=
  decide (MAX_SCRIPT_SIZE < script.length) || script.head? == some OP_RETURN

def is_p2sh (script : Script) : Bool :=
  script.length == 23 && script[0]? == some 0xa9 && script[1]? == some 0x14 && script[22]? == some 0x87

def MAX_MONEY : ℤ := 2100000000000000

def money_range (value : ℤ) : Bool := decide (0 ≤ value) && decide (value ≤ MAX_MONEY)

def I64_MIN : ℤ := -9223372036854775808

def I64_MAX : ℤ := 9223372036854775807

def i64_fits (value : ℤ) : Bool := decide (I64_MIN ≤ value) && decide (value ≤ I64_MAX)

def checked_add (a b : ℤ) : Option ℤ := if i64_fits (a + b) then some (a + b) else none

def saturating_add (a b : ℤ) : ℤ := max I64_MIN (min I64_MAX (a + b))

/-- `Iterator::sum` over `i64` in a build with overflow checks: `none` is the panic. -/
def checked_sum : ℤ → List ℤ → Option ℤ
  | total, [] => some total
  | total, value :: values =>
    match checked_add total value with
    | some total => checked_sum total values
    | none => none

theorem money_range_iff {value : ℤ} : money_range value = true ↔ 0 ≤ value ∧ value ≤ MAX_MONEY := by
  simp [money_range]

theorem i64_fits_iff {value : ℤ} : i64_fits value = true ↔ I64_MIN ≤ value ∧ value ≤ I64_MAX := by
  simp [i64_fits]

theorem checked_add_eq_some {a b c : ℤ} : checked_add a b = some c ↔ i64_fits (a + b) = true ∧ a + b = c := by
  unfold checked_add
  split <;> simp_all

theorem checked_add_of_fits {a b : ℤ} (h : i64_fits (a + b) = true) : checked_add a b = some (a + b) :=
  checked_add_eq_some.mpr ⟨h, rfl⟩

theorem checked_sum_eq {values : List ℤ} {total out : ℤ} (h : checked_sum total values = some out) :
    out = total + values.sum := by
  induction values generalizing total with
  | nil => simp [checked_sum] at h; simp [h]
  | cons value values ih =>
    rw [checked_sum] at h
    cases ha : checked_add total value with
    | none => simp [ha] at h
    | some next =>
      rw [ha] at h
      have hn := (checked_add_eq_some.mp ha).2
      rw [ih h, ← hn, List.sum_cons, add_assoc]

def P2SH : ScriptFlags := 1 <<< 0
def DERSIG : ScriptFlags := 1 <<< 2
def NULLDUMMY : ScriptFlags := 1 <<< 4
def CHECKLOCKTIMEVERIFY : ScriptFlags := 1 <<< 9
def CHECKSEQUENCEVERIFY : ScriptFlags := 1 <<< 10
def WITNESS : ScriptFlags := 1 <<< 11
def TAPROOT : ScriptFlags := 1 <<< 17

def flags_at (active : Bool) (flag : ScriptFlags) : ScriptFlags := if active then flag else 0

def block_script_flags (params : Params) (height : ℕ) (block_hash : BlockHash) : ScriptFlags :=
  let base := match params.script_flag_exceptions.find? (fun e => e.1 == block_hash) with
    | some (_, exception) => exception
    | none => P2SH ||| WITNESS ||| TAPROOT
  base ||| flags_at (params.bip66_height ≤ height) DERSIG
    ||| flags_at (params.bip65_height ≤ height) CHECKLOCKTIMEVERIFY
    ||| flags_at (params.csv_height ≤ height) CHECKSEQUENCEVERIFY
    ||| flags_at (params.segwit_height ≤ height) NULLDUMMY

def block_subsidy (height : ℕ) (params : Params) : ℤ :=
  -- Nat division by zero is 0, as `checked_div(..).unwrap_or(0)`
  let halvings := height / params.subsidy_halving_interval
  if 64 ≤ halvings then 0 else (5000000000 >>> halvings : ℕ)

theorem block_subsidy_bounds (height : ℕ) (params : Params) :
    0 ≤ block_subsidy height params ∧ block_subsidy height params ≤ 5000000000 := by
  unfold block_subsidy
  dsimp only
  split
  · constructor <;> omega
  · have h : 5000000000 >>> (height / params.subsidy_halving_interval) ≤ 5000000000 := Nat.shiftRight_le _ _
    exact ⟨Int.natCast_nonneg _, by exact_mod_cast h⟩

variable [Platform]

def Transaction.txid (tx : Transaction) : Txid := Platform.txid tx

def Transaction.wtxid (tx : Transaction) : Wtxid := Platform.wtxid tx

def BlockHeader.hash (header : BlockHeader) : BlockHash := Platform.block_hash header

def Block.block_hash (block : Block) : BlockHash := block.header.hash

end AvilaNode
