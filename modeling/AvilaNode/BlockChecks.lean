import AvilaNode.Pow
import Mathlib.Algebra.Group.Action.Defs
import Mathlib.Algebra.Order.BigOperators.Group.List

/-! The context-free and header-context checks of a block. -/

namespace AvilaNode

def MAX_BLOCK_WEIGHT : ℕ := 4000000

def WITNESS_SCALE_FACTOR : ℕ := 4

def MAX_BLOCK_SIGOPS_COST : ℕ := 80000

def LOCKTIME_THRESHOLD : ℕ := 500000000

def SEQUENCE_FINAL : ℕ := 0xffffffff

inductive TxRuleError where
  | VinEmpty
  | VoutEmpty
  | Oversize
  | VoutNegative
  | VoutTooLarge
  | TxOutTotalTooLarge
  | InputsDuplicate
  | BadCbLength
  | PrevoutNull
deriving DecidableEq, Repr

inductive BlockRuleError where
  | HighHash
  | BadSignetBlkSig
  | BadTxnMerkleRoot
  | BadTxnsDuplicate
  | BadBlkLength
  | BadCbMissing
  | BadCbMultiple
  | Tx (err : TxRuleError)
  | BadBlkSigops
deriving DecidableEq, Repr

inductive ContextualBlockError where
  | MissingMedianTimePast
  | TxNonFinal
  | BadCbHeight
  | BadWitnessNonceSize
  | BadWitnessMerkleMatch
  | UnexpectedWitness
  | BadBlkWeight
deriving DecidableEq, Repr

def TxRuleError.reason : TxRuleError → String
  | VinEmpty => "bad-txns-vin-empty"
  | VoutEmpty => "bad-txns-vout-empty"
  | Oversize => "bad-txns-oversize"
  | VoutNegative => "bad-txns-vout-negative"
  | VoutTooLarge => "bad-txns-vout-toolarge"
  | TxOutTotalTooLarge => "bad-txns-txouttotal-toolarge"
  | InputsDuplicate => "bad-txns-inputs-duplicate"
  | BadCbLength => "bad-cb-length"
  | PrevoutNull => "bad-txns-prevout-null"

def BlockRuleError.reason : BlockRuleError → String
  | HighHash => "high-hash"
  | BadSignetBlkSig => "bad-signet-blksig"
  | BadTxnMerkleRoot => "bad-txnmrklroot"
  | BadTxnsDuplicate => "bad-txns-duplicate"
  | BadBlkLength => "bad-blk-length"
  | BadCbMissing => "bad-cb-missing"
  | BadCbMultiple => "bad-cb-multiple"
  | Tx err => err.reason
  | BadBlkSigops => "bad-blk-sigops"

def ContextualBlockError.reason : ContextualBlockError → String
  | MissingMedianTimePast => "missing-mtp-context"
  | TxNonFinal => "bad-txns-nonfinal"
  | BadCbHeight => "bad-cb-height"
  | BadWitnessNonceSize => "bad-witness-nonce-size"
  | BadWitnessMerkleMatch => "bad-witness-merkle-match"
  | UnexpectedWitness => "unexpected-witness"
  | BadBlkWeight => "bad-blk-weight"

def compact_size_len (value : ℕ) : ℕ :=
  if value < 253 then 1 else if value ≤ 0xffff then 3 else if value ≤ 0xffffffff then 5 else 9

namespace Transaction

def size_without_witness (tx : Transaction) : ℕ :=
  4 + compact_size_len tx.inputs.length
    + (tx.inputs.map fun i => 32 + 4 + compact_size_len i.script_sig.length + i.script_sig.length + 4).sum
    + compact_size_len tx.outputs.length
    + (tx.outputs.map fun o => 8 + compact_size_len o.script_pubkey.length + o.script_pubkey.length).sum + 4

def has_witness (tx : Transaction) : Bool := tx.inputs.any fun i => !i.witness.isEmpty

def size_with_witness (tx : Transaction) : ℕ :=
  if tx.has_witness then
    tx.size_without_witness + 2
      + (tx.inputs.map fun i => compact_size_len i.witness.length
        + (i.witness.map fun item => compact_size_len item.length + item.length).sum).sum
  else tx.size_without_witness

end Transaction

namespace Block

def size_without_witness (block : Block) : ℕ :=
  80 + compact_size_len block.transactions.length
    + (block.transactions.map Transaction.size_without_witness).sum

def size_with_witness (block : Block) : ℕ :=
  80 + compact_size_len block.transactions.length
    + (block.transactions.map Transaction.size_with_witness).sum

def weight (block : Block) : ℕ := 3 * block.size_without_witness + block.size_with_witness

end Block

def check_outputs : ℤ → List TxOut → Except TxRuleError Unit
  | _, [] => .ok ()
  | value_out, output :: outputs =>
    if output.value < 0 then .error .VoutNegative
    else if MAX_MONEY < output.value then .error .VoutTooLarge
    else
      match (checked_add value_out output.value).filter fun total => total ≤ MAX_MONEY with
      | some total => check_outputs total outputs
      | none => .error .TxOutTotalTooLarge

def check_inputs (tx : Transaction) : Except TxRuleError Unit :=
  if ¬ (tx.inputs.map TxIn.previous_output).Nodup then .error .InputsDuplicate
  else if tx.is_coinbase then
    let len := (tx.inputs.head?.map fun i => i.script_sig.length).getD 0
    if 2 ≤ len ∧ len ≤ 100 then .ok () else .error .BadCbLength
  else if tx.inputs.any fun i => i.previous_output.is_null then .error .PrevoutNull
  else .ok ()

def check_transaction (tx : Transaction) : Except TxRuleError Unit :=
  if tx.inputs = [] then .error .VinEmpty
  else if tx.outputs = [] then .error .VoutEmpty
  else if MAX_BLOCK_WEIGHT < tx.size_without_witness * WITNESS_SCALE_FACTOR then .error .Oversize
  else
    match check_outputs 0 tx.outputs with
    | .error e => .error e
    | .ok () => check_inputs tx

def is_final_tx (tx : Transaction) (block_height locktime_cutoff : ℕ) : Bool :=
  tx.lock_time == 0
    || decide (tx.lock_time < if tx.lock_time < LOCKTIME_THRESHOLD then block_height else locktime_cutoff)
    || tx.inputs.all fun i => i.sequence == SEQUENCE_FINAL

def check_transactions : List Transaction → Except BlockRuleError Unit
  | [] => .ok ()
  | tx :: txs =>
    match check_transaction tx with
    | .error e => .error (.Tx e)
    | .ok () => check_transactions txs

def Hash256.to_bytes (hash : Hash256) : List UInt8 :=
  (List.range 32).map fun i => UInt8.ofNat (hash.toNat / 256 ^ (31 - i))

def le_bytes : ℕ → ℕ → List UInt8
  | 0, _ => []
  | fuel + 1, magnitude =>
    if magnitude = 0 then [] else UInt8.ofNat (magnitude % 256) :: le_bytes fuel (magnitude / 256)

def encode_script_num (value : ℕ) : List UInt8 :=
  let bytes := le_bytes 8 value
  if bytes.getLast?.any fun top => decide (0x80 ≤ top) then bytes ++ [0] else bytes

def push_int (value : ℕ) : List UInt8 :=
  if value = 0 then [0x00]
  else if value ≤ 16 then [UInt8.ofNat (0x51 - 1 + value)]
  else
    let data := encode_script_num value
    UInt8.ofNat data.length :: data

def MINIMUM_WITNESS_COMMITMENT : ℕ := 38

def WITNESS_COMMITMENT_HEADER : List UInt8 := [0x6a, 0x24, 0xaa, 0x21, 0xa9, 0xed]

def Block.witness_commitment_output (block : Block) : Option TxOut :=
  match block.transactions.head? with
  | none => none
  | some coinbase => (coinbase.outputs.filter fun output =>
      decide (MINIMUM_WITNESS_COMMITMENT ≤ output.script_pubkey.length)
        && WITNESS_COMMITMENT_HEADER.isPrefixOf output.script_pubkey).getLast?

variable {tx : Transaction}

theorem check_transactions_mem {txs : List Transaction} (h : check_transactions txs = .ok ()) (ht : tx ∈ txs) :
    check_transaction tx = .ok () := by
  induction txs with
  | nil => cases ht
  | cons a txs ih =>
    rw [check_transactions] at h
    cases ha : check_transaction a with
    | error e => simp [ha] at h
    | ok u =>
      rw [ha] at h
      rcases List.mem_cons.mp ht with rfl | ht
      · exact ha
      · exact ih h ht

theorem check_outputs_range {outputs : List TxOut} {total : ℤ} (h : check_outputs total outputs = .ok ())
    (ht : 0 ≤ total) : (∀ o ∈ outputs, money_range o.value) ∧
      total + (outputs.map TxOut.value).sum ≤ max total MAX_MONEY := by
  induction outputs generalizing total with
  | nil => simp
  | cons o outputs ih =>
    rw [check_outputs] at h
    split at h
    · cases h
    split at h
    · cases h
    rename_i hneg hbig
    split at h
    · rename_i next hnext
      obtain ⟨hadd, hle⟩ := Option.filter_eq_some_iff.mp hnext
      obtain ⟨-, hn⟩ := checked_add_eq_some.mp hadd
      have hle : next ≤ MAX_MONEY := by simpa using hle
      obtain ⟨hrange, hsum⟩ := ih h (by omega)
      refine ⟨fun a ha => ?_, ?_⟩
      · rcases List.mem_cons.mp ha with rfl | ha
        · exact money_range_iff.mpr ⟨by omega, by omega⟩
        · exact hrange a ha
      · rw [List.map_cons, List.sum_cons]
        omega
    · cases h

structure TxChecked (tx : Transaction) : Prop where
  outputs_range : ∀ o ∈ tx.outputs, money_range o.value
  outputs_total : (tx.outputs.map TxOut.value).sum ≤ MAX_MONEY
  inputs_nodup : (tx.inputs.map TxIn.previous_output).Nodup

theorem check_transaction_ok (h : check_transaction tx = .ok ()) : TxChecked tx := by
  unfold check_transaction at h
  split at h
  · cases h
  split at h
  · cases h
  split at h
  · cases h
  · cases ho : check_outputs 0 tx.outputs with
    | error e => simp [ho] at h
    | ok u =>
      rw [ho] at h
      obtain ⟨hrange, hsum⟩ := check_outputs_range ho (le_refl 0)
      have hmax : max (0 : ℤ) MAX_MONEY = MAX_MONEY := by decide
      refine ⟨hrange, by omega, ?_⟩
      by_contra hn
      rw [check_inputs, if_pos hn] at h
      cases h

structure Block.WithinLimits (block : Block) : Prop where
  weight : block.weight ≤ MAX_BLOCK_WEIGHT
  checked : ∀ tx ∈ block.transactions, check_transaction tx = .ok ()

theorem check_transaction_nonempty (h : check_transaction tx = .ok ()) :
    0 < tx.inputs.length ∧ 0 < tx.outputs.length := by
  unfold check_transaction at h
  split at h
  · cases h
  · split at h
    · cases h
    · exact ⟨List.length_pos_of_ne_nil ‹_›, List.length_pos_of_ne_nil ‹_›⟩

theorem one_le_compact_size_len (value : ℕ) : 1 ≤ compact_size_len value := by
  unfold compact_size_len
  split_ifs <;> omega

theorem Transaction.parts_le_size (tx : Transaction) :
    41 * tx.inputs.length + 9 * tx.outputs.length + 10 ≤ tx.size_without_witness ∧
      tx.size_without_witness ≤ tx.size_with_witness := by
  constructor
  · have hi : (tx.inputs.map fun i => 32 + 4 + compact_size_len i.script_sig.length + i.script_sig.length + 4).length
        • 41 ≤ _ := List.card_nsmul_le_sum _ _ fun n hn => by
      obtain ⟨i, -, rfl⟩ := List.mem_map.mp hn
      have hc := one_le_compact_size_len i.script_sig.length
      omega
    have ho : (tx.outputs.map fun o => 8 + compact_size_len o.script_pubkey.length + o.script_pubkey.length).length
        • 9 ≤ _ := List.card_nsmul_le_sum _ _ fun n hn => by
      obtain ⟨o, -, rfl⟩ := List.mem_map.mp hn
      have hc := one_le_compact_size_len o.script_pubkey.length
      omega
    have hci := one_le_compact_size_len tx.inputs.length
    have hco := one_le_compact_size_len tx.outputs.length
    rw [List.length_map, smul_eq_mul] at hi ho
    rw [size_without_witness]
    omega
  · rw [size_with_witness]
    split <;> omega

variable {block : Block}

theorem Block.WithinLimits.stripped_le (h : block.WithinLimits) :
    (block.transactions.map Transaction.size_without_witness).sum ≤ 1000000 := by
  have hw := h.weight
  have hs : (block.transactions.map Transaction.size_without_witness).sum
      ≤ (block.transactions.map Transaction.size_with_witness).sum :=
    List.sum_le_sum fun tx _ => tx.parts_le_size.2
  simp only [Block.weight, Block.size_without_witness, Block.size_with_witness, MAX_BLOCK_WEIGHT] at hw
  omega

theorem Block.WithinLimits.parts_le (h : block.WithinLimits) : (block.transactions.flatMap Transaction.inputs).length
      + (block.transactions.flatMap Transaction.outputs).length ≤ 1000000 := by
  have hs := h.stripped_le
  have hp : (block.transactions.map fun tx => tx.inputs.length + tx.outputs.length).sum
      ≤ (block.transactions.map Transaction.size_without_witness).sum := List.sum_le_sum fun tx _ => by
    have hp := tx.parts_le_size.1
    omega
  rw [List.length_flatMap, List.length_flatMap, ← List.sum_map_add]
  omega

theorem Block.WithinLimits.length_lt (h : block.WithinLimits) : block.transactions.length < 2 ^ 16 := by
  have hs := h.stripped_le
  have hl : (block.transactions.map Transaction.size_without_witness).length • 60 ≤ _ :=
    List.card_nsmul_le_sum _ _ fun n hn => by
      obtain ⟨tx, ht, rfl⟩ := List.mem_map.mp hn
      have hp := tx.parts_le_size.1
      have hn := check_transaction_nonempty (h.checked tx ht)
      omega
  rw [List.length_map, smul_eq_mul] at hl
  omega

variable [Platform]

def hash_merkle_pair (left right : Hash256) : Hash256 :=
  Platform.sha256d (Hash256.to_bytes left ++ Hash256.to_bytes right)

def merkle_level : List Hash256 → List Hash256 × Bool
  | [] => ([], false)
  | [last] => ([hash_merkle_pair last last], false)
  | left :: right :: hashes =>
    let (level, mutated) := merkle_level hashes
    (hash_merkle_pair left right :: level, left == right || mutated)

def merkle_levels : ℕ → List Hash256 → Bool → Hash256 × Bool
  | 0, hashes, mutated => (hashes.headD 0, mutated)
  | fuel + 1, hashes, mutated =>
    if 1 < hashes.length then
      let (level, pair_equal) := merkle_level hashes
      merkle_levels fuel level (mutated || pair_equal)
    else (hashes.headD 0, mutated)

def merkle_root (leaves : List Hash256) : Hash256 × Bool := merkle_levels leaves.length leaves false

def legacy_sig_op_count (tx : Transaction) : ℕ :=
  (tx.inputs.map fun i => Platform.sig_ops i.script_sig).sum
    + (tx.outputs.map fun o => Platform.sig_ops o.script_pubkey).sum

namespace Block

def merkle_root (block : Block) : Hash256 × Bool :=
  AvilaNode.merkle_root (block.transactions.map Transaction.txid)

def witness_merkle_root (block : Block) : Hash256 :=
  (AvilaNode.merkle_root (0 :: (block.transactions.drop 1).map Transaction.wtxid)).1

def expected_witness_commitment (block : Block) : Option (List UInt8) :=
  match block.transactions.head?.bind fun coinbase => coinbase.inputs.head? with
  | some { witness := [reserved_value], .. } =>
    if reserved_value.length = 32 then
      some (Hash256.to_bytes (Platform.sha256d (Hash256.to_bytes block.witness_merkle_root ++ reserved_value)))
    else none
  | _ => none

end Block

def check_block (block : Block) (params : Params) : Except BlockRuleError Unit :=
  match check_proof_of_work block.block_hash block.header.bits params with
  | .error _ => .error .HighHash
  | .ok () =>
    if params.signet_blocks && !Platform.check_signet_block_solution block params then
      .error .BadSignetBlkSig
    else if block.merkle_root.1 ≠ block.header.merkle_root then .error .BadTxnMerkleRoot
    else if block.merkle_root.2 then .error .BadTxnsDuplicate
    else if block.transactions = [] ∨ MAX_BLOCK_WEIGHT < block.transactions.length * WITNESS_SCALE_FACTOR
        ∨ MAX_BLOCK_WEIGHT < block.size_without_witness * WITNESS_SCALE_FACTOR then
      .error .BadBlkLength
    else if !(block.transactions.head?.any Transaction.is_coinbase) then .error .BadCbMissing
    else if (block.transactions.drop 1).any Transaction.is_coinbase then .error .BadCbMultiple
    else
      match check_transactions block.transactions with
      | .error e => .error e
      | .ok () =>
        let sig_ops := min ((block.transactions.map legacy_sig_op_count).sum) (2 ^ 64 - 1)
        if MAX_BLOCK_SIGOPS_COST < sig_ops * WITNESS_SCALE_FACTOR then .error .BadBlkSigops else .ok ()

structure BlockContext where
  params : Params
  height : ℕ
  parent_median_time_past : Option ℕ

def check_witness (block : Block) (ctx : BlockContext) : Except ContextualBlockError Unit :=
  let commitment := if ctx.params.segwit_height ≤ ctx.height then block.witness_commitment_output else none
  match commitment with
  | some output =>
    match block.expected_witness_commitment with
    | none => .error .BadWitnessNonceSize
    | some expected =>
      if (output.script_pubkey.drop 6).take 32 ≠ expected then .error .BadWitnessMerkleMatch else .ok ()
  | none => if block.transactions.any Transaction.has_witness then .error .UnexpectedWitness else .ok ()

def contextual_check_block (block : Block) (ctx : BlockContext) : Except ContextualBlockError Unit :=
  let cutoff := if ctx.params.csv_height ≤ ctx.height then ctx.parent_median_time_past
    else some block.header.time
  match cutoff with
  | none => .error .MissingMedianTimePast
  | some locktime_cutoff =>
    if block.transactions.any fun tx => !is_final_tx tx ctx.height locktime_cutoff then .error .TxNonFinal
    else
      let script_sig := ((block.transactions.head?.bind fun coinbase => coinbase.inputs.head?).map
        TxIn.script_sig).getD []
      if ctx.params.bip34_height ≤ ctx.height ∧ ¬ (push_int ctx.height).isPrefixOf script_sig then
        .error .BadCbHeight
      else
        match check_witness block ctx with
        | .error e => .error e
        | .ok () => if MAX_BLOCK_WEIGHT < block.weight then .error .BadBlkWeight else .ok ()

structure BlockChecked (block : Block) : Prop where
  coinbase_first : ∃ coinbase txs, block.transactions = coinbase :: txs ∧ coinbase.is_coinbase = true ∧
    ∀ tx ∈ txs, tx.is_coinbase = false
  txs : ∀ tx ∈ block.transactions, TxChecked tx

theorem check_block_ok {params : Params} (h : check_block block params = .ok ()) :
    BlockChecked block := by
  unfold check_block at h
  split at h
  · cases h
  split at h
  · cases h
  split at h
  · cases h
  split at h
  · cases h
  split at h
  · cases h
  split at h
  · cases h
  split at h
  · cases h
  rename_i hlen hfirst hrest
  cases ht : check_transactions block.transactions with
  | error e => simp [ht] at h
  | ok u =>
    refine ⟨?_, fun tx htx => check_transaction_ok (check_transactions_mem ht htx)⟩
    cases hb : block.transactions with
    | nil => simp [hb] at hlen
    | cons coinbase txs =>
      rw [hb] at hfirst hrest
      exact ⟨coinbase, txs, rfl, by simpa using hfirst, by simpa using hrest⟩

end AvilaNode
