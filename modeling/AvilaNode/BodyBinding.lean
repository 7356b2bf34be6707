import AvilaNode.TransactionCodec

/-! A header names one body: its root binds what is left of a block without its witnesses, and the commitment
of the coinbase binds those. -/

namespace AvilaNode

open ByteReader ByteStrings MerkleTree

structure Transaction.Typed (tx : Transaction) : Prop where
  version : tx.version < 2 ^ 32
  inputs : ∀ input ∈ tx.inputs, input.previous_output.vout < 2 ^ 32 ∧ input.sequence < 2 ^ 32
  lock_time : tx.lock_time < 2 ^ 32

structure BlockHeader.Typed (header : BlockHeader) : Prop where
  version : -2 ^ 31 ≤ header.version ∧ header.version < 2 ^ 31
  time : header.time < 2 ^ 32
  nonce : header.nonce < 2 ^ 32

structure Block.Typed (block : Block) : Prop where
  header : block.header.Typed
  transactions : ∀ tx ∈ block.transactions, tx.Typed

def BlockHeader.encode (header : BlockHeader) : List UInt8 :=
  le 4 (BitVec.ofInt 32 header.version).toNat ++ header.prev_block_hash.to_bytes ++ header.merkle_root.to_bytes
    ++ le 4 header.time ++ le 4 header.bits.toNat ++ le 4 header.nonce

theorem BlockHeader.encode_inj {a b : BlockHeader} (ha : a.Typed) (hb : b.Typed) (h : a.encode = b.encode) :
    a = b := by
  simp only [encode, List.append_assoc] at h
  obtain ⟨hversion, h⟩ := List.append_inj h (by simp)
  obtain ⟨hprev, h⟩ := List.append_inj h (by simp)
  obtain ⟨hroot, h⟩ := List.append_inj h (by simp)
  obtain ⟨htime, h⟩ := List.append_inj h (by simp)
  obtain ⟨hbits, hnonce⟩ := List.append_inj h (by simp)
  have hv := le_inj (by simpa using (BitVec.ofInt 32 a.version).isLt)
    (by simpa using (BitVec.ofInt 32 b.version).isLt) hversion
  have hv : a.version = b.version := by
    have he := congrArg BitVec.toInt (BitVec.eq_of_toNat_eq hv)
    rw [BitVec.toInt_ofInt_eq_self (by decide) ha.version.1 ha.version.2,
      BitVec.toInt_ofInt_eq_self (by decide) hb.version.1 hb.version.2] at he
    exact he
  have ht := le_inj (by simpa using ha.time) (by simpa using hb.time) htime
  have hn := le_inj (by simpa using ha.nonce) (by simpa using hb.nonce) hnonce
  have hb : a.bits = b.bits := BitVec.eq_of_toNat_eq
    (le_inj (by simpa using a.bits.isLt) (by simpa using b.bits.isLt) hbits)
  have hp := Hash256.to_bytes_inj hprev
  have hr := Hash256.to_bytes_inj hroot
  cases a
  cases b
  simp_all

namespace Transaction

def stripped (tx : Transaction) : Transaction := { tx with inputs := tx.inputs.map TxIn.bare }

theorem has_witness_stripped (tx : Transaction) : tx.stripped.has_witness = false := by
  simp [has_witness, stripped, TxIn.bare]

theorem encode_stripped (tx : Transaction) : tx.stripped.encode = tx.write_without_witness := by
  rw [encode, write_with_witness, if_neg (by simp [has_witness_stripped]), write_without_witness,
    write_without_witness]
  change le 4 tx.version ++ write_vin (tx.inputs.map TxIn.bare) ++ _ ++ _ = _
  rw [write_vin_bare]
  rfl

variable {tx : Transaction}

theorem stripped_of_witnessless (h : tx.has_witness = false) : tx.stripped = tx := by
  have hmap : tx.inputs.map TxIn.bare = tx.inputs := by
    apply map_bare
    simpa [has_witness] using h
  rw [stripped, hmap]

theorem size_with_stripped (tx : Transaction) : tx.stripped.size_with_witness = tx.size_without_witness := by
  rw [← length_encode, encode_stripped, length_write_without_witness]

theorem Typed.stripped (h : tx.Typed) : tx.stripped.Typed := by
  refine ⟨h.version, ?_, h.lock_time⟩
  intro input hi
  obtain ⟨original, ho, rfl⟩ := List.mem_map.mp hi
  exact h.inputs original ho

theorem input_le_size {input : TxIn} (h : input ∈ tx.inputs) : input.script_sig.length ≤ tx.size_without_witness := by
  have hs := List.single_le_sum (by simp) _ (List.mem_map_of_mem
    (f := fun i : TxIn => 32 + 4 + compact_size_len i.script_sig.length + i.script_sig.length + 4) h)
  rw [size_without_witness]
  omega

theorem output_le_size {output : TxOut} (h : output ∈ tx.outputs) :
    output.script_pubkey.length ≤ tx.size_without_witness := by
  have hs := List.single_le_sum (by simp) _ (List.mem_map_of_mem
    (f := fun o : TxOut => 8 + compact_size_len o.script_pubkey.length + o.script_pubkey.length) h)
  rw [size_without_witness]
  omega

theorem witness_le_size {input : TxIn} (h : input ∈ tx.inputs) :
    input.witness.length ≤ tx.size_with_witness ∧ ∀ item ∈ input.witness, item.length ≤ tx.size_with_witness := by
  rw [size_with_witness]
  split
  · have hs := List.single_le_sum (by simp) _ (List.mem_map_of_mem
      (f := fun i : TxIn => compact_size_len i.witness.length
        + (i.witness.map fun item => compact_size_len item.length + item.length).sum) h)
    constructor
    · have hl : (input.witness.map fun item => compact_size_len item.length + item.length).length • 1 ≤ _ :=
        List.card_nsmul_le_sum _ _ fun n hn => by
          obtain ⟨item, -, rfl⟩ := List.mem_map.mp hn
          have := one_le_compact_size_len item.length
          omega
      rw [List.length_map, smul_eq_mul] at hl
      omega
    · intro item hi
      have hl := List.single_le_sum (by simp) _ (List.mem_map_of_mem
        (f := fun item : List UInt8 => compact_size_len item.length + item.length) hi)
      omega
  · rename_i hw
    have he : input.witness = [] := by
      simp only [has_witness, List.any_eq_true, not_exists, not_and, Bool.not_eq_true, Bool.not_eq_false'] at hw
      simpa using hw input h
    simp [he]

theorem Typed.encodable (h : tx.Typed) (hc : ∀ o ∈ tx.outputs, money_range o.value)
    (hs : tx.size_with_witness ≤ MAX_SIZE) : tx.Encodable := by
  have hp := tx.parts_le_size
  refine ⟨h.version, ⟨by omega, ?_⟩, ⟨by omega, ?_⟩, h.lock_time⟩
  · intro input hi
    obtain ⟨hw, hitems⟩ := witness_le_size hi
    have hl := input_le_size hi
    exact ⟨(h.inputs input hi).1, by omega, (h.inputs input hi).2, by omega, fun item hm => (hitems item hm).trans hs⟩
  · intro output ho
    have hl := output_le_size ho
    have hr := money_range_iff.mp (hc output ho)
    refine ⟨i64_fits_iff.mpr ?_, by omega⟩
    simp only [I64_MIN, I64_MAX, MAX_MONEY] at hr ⊢
    omega

theorem encode_inj {a b : Transaction} (ha : a.Encodable) (hb : b.Encodable) (hne : a.inputs ≠ [])
    (hne' : b.inputs ≠ [])
    (h : a.encode = b.encode) : a = b := by
  have hra := read_inverts.read_write (a := a) [] ⟨ha, Or.inl hne⟩
  have hrb := read_inverts.read_write (a := b) [] ⟨hb, Or.inl hne'⟩
  have he : a.write_with_witness = b.write_with_witness := h
  rw [he, hrb] at hra
  simpa using hra.symm

theorem check_transaction_weight (h : check_transaction tx = .ok ()) :
    tx.size_without_witness * WITNESS_SCALE_FACTOR ≤ MAX_BLOCK_WEIGHT := by
  unfold check_transaction at h
  split at h
  · cases h
  split at h
  · cases h
  · split at h
    · cases h
    · exact not_lt.mp ‹_›

theorem is_final_stripped (tx : Transaction) (block_height cutoff : ℕ) :
    is_final_tx tx.stripped block_height cutoff = is_final_tx tx block_height cutoff := by
  simp only [is_final_tx, stripped, List.all_map]
  rfl

end Transaction

namespace Block

def stripped (block : Block) : Block := { block with transactions := block.transactions.map Transaction.stripped }

theorem witness_commitment_output_stripped (block : Block) :
    block.stripped.witness_commitment_output = block.witness_commitment_output := by
  unfold witness_commitment_output
  cases h : block.transactions with
  | nil => simp [stripped, h]
  | cons coinbase txs => simp [stripped, h, Transaction.stripped]

theorem script_sig_stripped (block : Block) :
    (block.stripped.transactions.head?.bind fun coinbase => coinbase.inputs.head?).map TxIn.script_sig
      = (block.transactions.head?.bind fun coinbase => coinbase.inputs.head?).map TxIn.script_sig := by
  cases h : block.transactions with
  | nil => simp [stripped, h]
  | cons coinbase txs =>
    cases hi : coinbase.inputs <;> simp [stripped, h, Transaction.stripped, hi, TxIn.bare]

end Block

section

variable [Platform]

/-- The names of transactions and headers are hashes of what is written of them. -/
class Serialized : Prop where
  txid (tx : Transaction) : Platform.txid tx = Platform.sha256d tx.write_without_witness
  wtxid (tx : Transaction) : Platform.wtxid tx = Platform.sha256d tx.encode
  block_hash (header : BlockHeader) : Platform.block_hash header = Platform.sha256d header.encode

namespace Block

def txids (block : Block) : List Txid := block.transactions.map Transaction.txid

def witness_leaves (block : Block) : List Wtxid := 0 :: (block.transactions.drop 1).map Transaction.wtxid

def committed (block : Block) : Option (List UInt8) :=
  match block.transactions.head?.bind fun coinbase => coinbase.inputs.head? with
  | some { witness := [reserved_value], .. } =>
    if reserved_value.length = 32 then some (Hash256.to_bytes block.witness_merkle_root ++ reserved_value) else none
  | _ => none

theorem expected_witness_commitment_eq (block : Block) : block.expected_witness_commitment =
    block.committed.map fun bytes => Hash256.to_bytes (Platform.sha256d bytes) := by
  unfold expected_witness_commitment committed
  generalize (block.transactions.head?.bind fun coinbase => coinbase.inputs.head?) = input
  rcases input with - | ⟨_, _, _, _ | ⟨reserved_value, _ | ⟨second, rest⟩⟩⟩
  · rfl
  · rfl
  · by_cases hlen : reserved_value.length = 32 <;> simp [hlen]
  · rfl

theorem committed_eq_some {block : Block} {bytes : List UInt8} (h : block.committed = some bytes) :
    ∃ coinbase txs input inputs reserved_value, block.transactions = coinbase :: txs ∧
      coinbase.inputs = input :: inputs ∧ input.witness = [reserved_value] ∧
        bytes = Hash256.to_bytes block.witness_merkle_root ++ reserved_value := by
  unfold committed at h
  cases ht : block.transactions with
  | nil => simp [ht] at h
  | cons coinbase txs =>
    cases hi : coinbase.inputs with
    | nil => simp [ht, hi] at h
    | cons input inputs =>
      simp only [ht, List.head?_cons, Option.bind_some, hi] at h
      split at h
      · rename_i reserved_value heq
        split at h
        · refine ⟨coinbase, txs, input, inputs, reserved_value, rfl, hi, ?_, (Option.some.inj h).symm⟩
          cases heq
          rfl
        · cases h
      · cases h

def hashed (block : Block) : List (List UInt8) :=
  block.header.encode :: (block.transactions.map Transaction.write_without_witness
    ++ block.transactions.map Transaction.encode ++ hashed_inputs block.txids
    ++ hashed_inputs block.witness_leaves ++ block.committed.toList)

/-- No two of the strings the checks of two blocks hash collide, and none of the inner nodes is a txid. -/
structure CollisionFree (block block' : Block) : Prop where
  inj : Set.InjOn Platform.sha256d {bytes | bytes ∈ block.hashed ++ block'.hashed}
  leaf : ∀ leaf ∈ block.txids ++ block'.txids, ∀ bytes ∈ hashed_inputs block.txids ++ hashed_inputs block'.txids,
    Platform.sha256d bytes ≠ leaf

end Block

structure RootChecked (block : Block) : Prop where
  merkle_root : block.merkle_root = (block.header.merkle_root, false)
  nonempty : block.transactions ≠ []
  checked : ∀ tx ∈ block.transactions, check_transaction tx = .ok ()
  coinbase : ∀ tx ∈ block.transactions.head?, tx.is_coinbase = true

theorem RootChecked.of_check {block : Block} {params : Params} (h : check_block block params = .ok ()) :
    RootChecked block := by
  obtain ⟨⟨coinbase, txs, htxs, hcoinbase, -⟩, -⟩ := check_block_ok h
  have hne : block.transactions ≠ [] := by simp [htxs]
  have hhead : ∀ tx ∈ block.transactions.head?, tx.is_coinbase = true := by
    intro tx ht
    rw [htxs, List.head?_cons, Option.mem_some_iff] at ht
    exact ht ▸ hcoinbase
  unfold check_block at h
  split at h
  · cases h
  split at h
  · cases h
  split at h
  · cases h
  rename_i hroot
  split at h
  · cases h
  rename_i hmutated
  split at h
  · cases h
  split at h
  · cases h
  split at h
  · cases h
  · cases ht : check_transactions block.transactions with
    | error e => simp [ht] at h
    | ok u =>
      refine ⟨Prod.ext (not_not.mp hroot) (by simpa using hmutated), hne, ?_, hhead⟩
      intro tx hm
      exact check_transactions_mem ht hm

section

variable [Serialized] {block block' : Block}

variable {bytes : List UInt8} {tx : Transaction}

omit [Serialized] in
theorem hashed_left (h : bytes ∈ block.hashed) :
    bytes ∈ ({bytes | bytes ∈ block.hashed ++ block'.hashed} : Set (List UInt8)) := List.mem_append_left _ h

omit [Serialized] in
theorem hashed_right (h : bytes ∈ block'.hashed) :
    bytes ∈ ({bytes | bytes ∈ block.hashed ++ block'.hashed} : Set (List UInt8)) := List.mem_append_right _ h

omit [Serialized] in
theorem hashed_txids (h : bytes ∈ hashed_inputs block.txids) : bytes ∈ block.hashed := by
  simp [Block.hashed, h]

omit [Serialized] in
theorem hashed_witness (h : bytes ∈ hashed_inputs block.witness_leaves) : bytes ∈ block.hashed := by
  simp [Block.hashed, h]

omit [Serialized] in
theorem txids_eq (free : block.CollisionFree block') (hheader : block.header = block'.header) (h : RootChecked block)
    (h' : RootChecked block') : block.txids = block'.txids := by
  have hinj : ∀ a ∈ hashed_inputs block.txids ++ hashed_inputs block'.txids,
      ∀ b ∈ hashed_inputs block.txids ++ hashed_inputs block'.txids, Platform.sha256d a = Platform.sha256d b →
        a = b := by
    have hmem : ∀ a ∈ hashed_inputs block.txids ++ hashed_inputs block'.txids, a ∈ block.hashed ++ block'.hashed := by
      intro a ha
      rcases List.mem_append.mp ha with ha | ha
      · exact List.mem_append_left _ (hashed_txids ha)
      · exact List.mem_append_right _ (hashed_txids ha)
    intro a ha b hb
    exact free.inj (hmem a ha) (hmem b hb)
  have hroot : merkle_root block.txids = (block.header.merkle_root, false) := h.merkle_root
  have hroot' : merkle_root block'.txids = (block.header.merkle_root, false) := hheader ▸ h'.merkle_root
  have htry : ∀ (group : List (Hash256 × Hash256)) (output : List Hash256),
      (fun _ => none : List (Hash256 × Hash256) → Option (List Hash256)) group = some output →
        output = group.map hash_pair := by simp
  rw [← merkle_root_with_avx2_eq htry _ false] at hroot hroot'
  rcases merkle_root_binding htry hinj free.leaf hroot hroot' with he | ⟨-, he⟩
  · exact he
  · rcases he with he | he
    · exact absurd (List.map_eq_nil_iff.mp he) h.nonempty
    · exact absurd (List.map_eq_nil_iff.mp he) h'.nonempty

def Readable (tx : Transaction) : Prop := tx.Encodable ∧ tx.inputs ≠ []

omit [Platform] [Serialized] in
theorem readable_inj : Set.InjOn Transaction.encode {tx | Readable tx} :=
  fun _ ha _ hb h => Transaction.encode_inj ha.1 hb.1 ha.2 hb.2 h

omit [Platform] [Serialized] in
theorem Transaction.Typed.readable (h : tx.Typed) (hc : check_transaction tx = .ok ())
    (hs : tx.size_with_witness ≤ MAX_SIZE) : Readable tx :=
  ⟨h.encodable (check_transaction_ok hc).outputs_range hs,
    List.ne_nil_of_length_pos (check_transaction_nonempty hc).1⟩

omit [Platform] [Serialized] in
theorem stripped_readable (h : tx.Typed) (hc : check_transaction tx = .ok ()) : Readable tx.stripped := by
  have hsize : tx.size_without_witness ≤ MAX_SIZE := by
    have hw := Transaction.check_transaction_weight hc
    simp only [MAX_SIZE, MAX_BLOCK_WEIGHT, WITNESS_SCALE_FACTOR] at hw ⊢
    omega
  refine ⟨h.stripped.encodable (check_transaction_ok hc).outputs_range (tx.size_with_stripped ▸ hsize), ?_⟩
  have hne := List.ne_nil_of_length_pos (check_transaction_nonempty hc).1
  simpa [Transaction.stripped] using hne

theorem stripped_eq (free : block.CollisionFree block') (hheader : block.header = block'.header)
    (ht : block.Typed) (ht' : block'.Typed) (h : RootChecked block) (h' : RootChecked block') :
    block.stripped = block'.stripped := by
  have hwritten : block.transactions.map Transaction.write_without_witness
      = block'.transactions.map Transaction.write_without_witness := by
    apply map_inj free.inj
    · intro bytes hm
      exact hashed_left (by simp [Block.hashed, hm])
    · intro bytes hm
      exact hashed_right (by simp [Block.hashed, hm])
    · have he := txids_eq free hheader h h'
      have hname : Transaction.txid = fun tx => Platform.sha256d tx.write_without_witness := funext Serialized.txid
      rw [Block.txids, Block.txids, hname] at he
      simpa [Function.comp_def] using he
  have hencoded : block.stripped.transactions.map Transaction.encode
      = block'.stripped.transactions.map Transaction.encode := by
    simpa [Block.stripped, Transaction.encode_stripped, Function.comp_def] using hwritten
  have hreadable {b : Block} (ht : b.Typed) (h : RootChecked b) : ∀ tx ∈ b.stripped.transactions, Readable tx := by
    intro tx hm
    obtain ⟨original, ho, rfl⟩ := List.mem_map.mp hm
    exact stripped_readable (ht.transactions original ho) (h.checked original ho)
  have htxs := map_inj readable_inj (hreadable ht h) (hreadable ht' h') hencoded
  have hh : block.stripped.header = block'.stripped.header := hheader
  cases hs : block.stripped
  cases hs' : block'.stripped
  simp_all

omit [Platform] [Serialized] in
theorem witnessless_eq (h : block.stripped = block'.stripped) (hw : ∀ tx ∈ block.transactions, tx.has_witness = false)
    (hw' : ∀ tx ∈ block'.transactions, tx.has_witness = false) : block = block' := by
  have hself {b : Block} (hw : ∀ tx ∈ b.transactions, tx.has_witness = false) : b.stripped = b := by
    have hmap : b.transactions.map Transaction.stripped = b.transactions.map id :=
      List.map_congr_left fun tx hm => Transaction.stripped_of_witnessless (hw tx hm)
    rw [Block.stripped, hmap, List.map_id]
  rw [← hself hw, h, hself hw']

omit [Platform] [Serialized] in
theorem is_coinbase_input (h : tx.is_coinbase = true) : ∃ input, tx.inputs = [input] := by
  unfold Transaction.is_coinbase at h
  split at h
  · exact ⟨_, ‹_›⟩
  · cases h

omit [Platform] [Serialized] in
theorem coinbase_eq {tx' : Transaction} {input input' : TxIn} (h : tx.stripped = tx'.stripped)
    (hi : tx.inputs = [input]) (hi' : tx'.inputs = [input']) (hw : input.witness = input'.witness) : tx = tx' := by
  cases tx
  cases tx'
  cases input
  cases input'
  simp only [Transaction.stripped] at *
  subst hi hi'
  simp_all [TxIn.bare]

variable {txs txs' : List Transaction}

theorem encoded_eq (free : block.CollisionFree block') (hin : ∀ tx ∈ txs, tx ∈ block.transactions)
    (hin' : ∀ tx ∈ txs', tx ∈ block'.transactions) (h : txs.map Transaction.wtxid = txs'.map Transaction.wtxid) :
    txs.map Transaction.encode = txs'.map Transaction.encode := by
  apply map_inj free.inj
  · intro bytes hm
    obtain ⟨tx, ht, rfl⟩ := List.mem_map.mp hm
    exact hashed_left (by simp only [Block.hashed, List.mem_cons, List.mem_append]; grind)
  · intro bytes hm
    obtain ⟨tx, ht, rfl⟩ := List.mem_map.mp hm
    exact hashed_right (by simp only [Block.hashed, List.mem_cons, List.mem_append]; grind)
  · have hname : Transaction.wtxid = fun tx => Platform.sha256d tx.encode := funext Serialized.wtxid
    rw [hname] at h
    simpa [Function.comp_def] using h

omit [Platform] [Serialized] in
theorem bodies_eq (ht : ∀ tx ∈ txs, tx.Typed ∧ check_transaction tx = .ok ())
    (ht' : ∀ tx ∈ txs', tx.Typed ∧ check_transaction tx = .ok ())
    (hsize : ∀ tx ∈ txs', tx.size_with_witness ≤ MAX_SIZE)
    (h : txs.map Transaction.encode = txs'.map Transaction.encode) :
    txs = txs' := by
  have hlength : txs.map Transaction.size_with_witness = txs'.map Transaction.size_with_witness := by
    have he := congrArg (List.map List.length) h
    simpa [Transaction.length_encode, Function.comp_def] using he
  apply map_inj readable_inj _ _ h
  · intro tx hm
    refine (ht tx hm).1.readable (ht tx hm).2 ?_
    have hs : tx.size_with_witness ∈ txs'.map Transaction.size_with_witness := hlength ▸ List.mem_map_of_mem hm
    obtain ⟨tx', hm', he⟩ := List.mem_map.mp hs
    exact he ▸ hsize tx' hm'
  · intro tx hm
    exact (ht' tx hm).1.readable (ht' tx hm).2 (hsize tx hm)

variable {ctx : BlockContext}

omit [Serialized] in
theorem check_witness_ok (h : check_witness block ctx = .ok ()) :
    ((ctx.params.segwit_height ≤ ctx.height → block.witness_commitment_output = none) ∧
      ∀ tx ∈ block.transactions, tx.has_witness = false) ∨
      (ctx.params.segwit_height ≤ ctx.height ∧ ∃ output bytes, block.witness_commitment_output = some output ∧
        block.committed = some bytes ∧
          (output.script_pubkey.drop 6).take 32 = (Platform.sha256d bytes).to_bytes) := by
  unfold check_witness at h
  dsimp only at h
  split at h
  · rename_i output hout
    split at hout
    · rename_i hactive
      split at h
      · cases h
      rename_i expected hexpected
      split at h
      · cases h
      · rename_i heq
        rw [Block.expected_witness_commitment_eq, Option.map_eq_some_iff] at hexpected
        obtain ⟨bytes, hbytes, rfl⟩ := hexpected
        exact Or.inr ⟨hactive, output, bytes, hout, hbytes, not_not.mp heq⟩
    · cases hout
  · rename_i hnone
    split at h
    · cases h
    · rename_i hwitness
      left
      refine ⟨fun hactive => ?_, by simpa using hwitness⟩
      rwa [if_pos hactive] at hnone

omit [Platform] [Serialized] in
theorem size_le_weight (h : tx ∈ block.transactions) : tx.size_with_witness ≤ block.weight := by
  have hs := List.single_le_sum (by simp) _ (List.mem_map_of_mem (f := Transaction.size_with_witness) h)
  rw [Block.weight, Block.size_with_witness]
  omega

theorem body_eq (free : block.CollisionFree block') (hheader : block.header = block'.header) (ht : block.Typed)
    (ht' : block'.Typed) (h : RootChecked block) (h' : RootChecked block') (hw : check_witness block ctx = .ok ())
    (hw' : check_witness block' ctx = .ok ()) (hweight : block'.weight ≤ MAX_BLOCK_WEIGHT) : block = block' := by
  have hstripped := stripped_eq free hheader ht ht' h h'
  have hcommitment : block.witness_commitment_output = block'.witness_commitment_output := by
    rw [← Block.witness_commitment_output_stripped, hstripped, Block.witness_commitment_output_stripped]
  rcases check_witness_ok hw with ⟨hnone, hbare⟩ | ⟨hactive, output, bytes, hout, hbytes, hmatch⟩
  · rcases check_witness_ok hw' with ⟨-, hbare'⟩ | ⟨hactive, output, bytes, hout, -, -⟩
    · exact witnessless_eq hstripped hbare hbare'
    · rw [← hcommitment, hnone hactive] at hout
      cases hout
  · rcases check_witness_ok hw' with ⟨hnone, -⟩ | ⟨-, output', bytes', hout', hbytes', hmatch'⟩
    · rw [hcommitment, hnone hactive] at hout
      cases hout
    rw [hcommitment, hout'] at hout
    obtain rfl := Option.some.inj hout
    have hsame : bytes = bytes' := by
      apply free.inj
      · exact hashed_left (by simp [Block.hashed, hbytes])
      · exact hashed_right (by simp [Block.hashed, hbytes'])
      · exact Hash256.to_bytes_inj (hmatch.symm.trans hmatch')
    obtain ⟨coinbase, txs, input, inputs, reserved, htxs, hinputs, hinput, rfl⟩ := Block.committed_eq_some hbytes
    obtain ⟨coinbase', txs', input', inputs', reserved', htxs', hinputs', hinput', rfl⟩ :=
      Block.committed_eq_some hbytes'
    obtain ⟨hroot, rfl⟩ := List.append_inj hsame (by simp)
    have hparts : coinbase.stripped :: txs.map Transaction.stripped
        = coinbase'.stripped :: txs'.map Transaction.stripped := by
      have he := congrArg Block.transactions hstripped
      simpa [Block.stripped, htxs, htxs'] using he
    obtain ⟨hcoinbase, hrest⟩ := List.cons.inj hparts
    have hfirst : coinbase = coinbase' := by
      obtain ⟨only, honly⟩ := is_coinbase_input (h.coinbase coinbase (by simp [htxs]))
      obtain ⟨only', honly'⟩ := is_coinbase_input (h'.coinbase coinbase' (by simp [htxs']))
      obtain ⟨rfl, -⟩ := List.cons.inj (hinputs.symm.trans honly)
      obtain ⟨rfl, -⟩ := List.cons.inj (hinputs'.symm.trans honly')
      exact coinbase_eq hcoinbase honly honly' (hinput.trans hinput'.symm)
    have hleaves : block.witness_leaves = block'.witness_leaves := by
      apply merkle_root_inj_length
      · apply free.inj.mono
        intro bytes hm
        rcases List.mem_append.mp hm with hm | hm
        · exact hashed_left (hashed_witness hm)
        · exact hashed_right (hashed_witness hm)
      · have hl := congrArg List.length hrest
        simpa [Block.witness_leaves, htxs, htxs'] using hl
      · exact Hash256.to_bytes_inj hroot
    have htail : txs = txs' := by
      have hmem : ∀ tx ∈ txs, tx ∈ block.transactions := fun tx hm => htxs ▸ List.mem_cons_of_mem _ hm
      have hmem' : ∀ tx ∈ txs', tx ∈ block'.transactions := fun tx hm => htxs' ▸ List.mem_cons_of_mem _ hm
      apply bodies_eq
      · exact fun tx hm => ⟨ht.transactions tx (hmem tx hm), h.checked tx (hmem tx hm)⟩
      · exact fun tx hm => ⟨ht'.transactions tx (hmem' tx hm), h'.checked tx (hmem' tx hm)⟩
      · intro tx hm
        have hs := size_le_weight (hmem' tx hm)
        simp only [MAX_SIZE, MAX_BLOCK_WEIGHT] at hweight ⊢
        omega
      · apply encoded_eq free hmem hmem'
        simpa [Block.witness_leaves, htxs, htxs'] using hleaves
    cases block
    cases block'
    simp_all

end

end

end AvilaNode
