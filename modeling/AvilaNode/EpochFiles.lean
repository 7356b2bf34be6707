import AvilaNode.RunLookup
import AvilaNode.TransactionCodec

/-! The files of a run epoch: what a flush writes, and what the layer opened from them answers. -/

namespace AvilaNode

open ByteStrings CoinCodec Layers

namespace EpochFiles

variable [PublicKeys]

def encode_tx_undo (tx : TxUndo) : List UInt8 :=
  write_compact_size tx.spent.length ++ tx.spent.flatMap encode_coin ++ write_compact_size tx.overwritten.length
    ++ tx.overwritten.flatMap fun e => e.1.txid.to_bytes ++ le 4 e.1.vout ++ encode_coin e.2

def encode_undo (hash : BlockHash) (u : BlockUndo) : List UInt8 :=
  hash.to_bytes ++ write_compact_size u.txs.length ++ u.txs.flatMap encode_tx_undo

def read_count : SliceReader ℕ
  | [] => none
  | b0 :: bytes =>
    let width := if b0 < 253 then 0 else if b0 = 253 then 2 else if b0 = 254 then 4 else 8
    if bytes.length < width then none
    else some (if width = 0 then b0.toNat else value (bytes.take width), bytes.drop width)

def read_many {α : Type} (read : SliceReader α) : ℕ → SliceReader (List α)
  | 0 => pure []
  | n + 1 => do
    let a ← read
    let as ← read_many read n
    pure (a :: as)

def read_hash : SliceReader Hash256 := do
  let bytes ← CoinCodec.take 32
  pure (BitVec.ofNat 256 (value bytes.reverse))

def read_overwritten : SliceReader (OutPoint × Coin) := do
  let txid ← read_hash
  let vout ← CoinCodec.take 4
  let coin ← decode_coin_compact
  pure (⟨txid, value vout⟩, coin)

def read_tx_undo : SliceReader TxUndo := do
  let spent_count ← read_count
  let spent ← read_many decode_coin_compact spent_count
  let over_count ← read_count
  let overwritten ← read_many read_overwritten over_count
  pure ⟨spent, overwritten⟩

def decode_undo_compact : SliceReader (BlockHash × BlockUndo) := do
  let hash ← read_hash
  let tx_count ← read_count
  let txs ← read_many read_tx_undo tx_count
  pure (hash, ⟨txs⟩)

def undo_record (row : UndoRow) : List UInt8 :=
  let body := encode_undo row.2.1 row.2.2
  le 4 row.1 ++ le 4 body.length ++ body

def load_rows : ℕ → List UInt8 → List UndoRow
  | 0, _ => []
  | fuel + 1, buf =>
    if buf.length < 8 then []
    else
      let h := value (buf.take 4)
      let len := value ((buf.drop 4).take 4)
      let rest := buf.drop 8
      if rest.length < len then []
      else
        match decode_undo_compact (rest.take len) with
        | some ((hash, u), _) => (h, hash, u) :: load_rows fuel (rest.drop len)
        | none => load_rows fuel (rest.drop len)

def load_undos (buf : List UInt8) : List UndoRow := load_rows buf.length buf

structure Files where
  run : List UInt8
  del : List UInt8
  und : List UInt8

def DEFAULT_STRIDE : UInt32 := 512

def ordered (dirty : Delta OutPoint Coin) : List (OutPoint × Option Coin) :=
  (toList dirty).insertionSort fun a b => (RunFile.outpoint_key a.1).toNat ≤ (RunFile.outpoint_key b.1).toNat

def write_entries (run : RunFile.RunBuilder) (del : List UInt8) :
    List (OutPoint × Option Coin) → Except IoError (RunFile.RunBuilder × List UInt8)
  | [] => .ok (run, del)
  | (op, some c) :: entries =>
    match run.push_wire (RunFile.outpoint_key op) (encode_coin c) with
    | .error e => .error e
    | .ok run => write_entries run del entries
  | (op, none) :: entries => write_entries run (del ++ RunFile.key_bytes (RunFile.outpoint_key op)) entries

def write_epoch (dirty : Delta OutPoint Coin) (undos : List UndoRow) : Except IoError Files :=
  match write_entries (RunFile.create_with_stride DEFAULT_STRIDE) [] (ordered dirty) with
  | .error e => .error e
  | .ok (run, del) => .ok ⟨run.finish, del, undos.flatMap undo_record⟩

structure EpochLayer where
  tip : ℕ
  delta : ℤ
  seq : ℕ
  run : RunFile.SortedRun
  del : List RunKey
  undos : List UndoRow

def read_keys : ℕ → List UInt8 → List RunKey
  | 0, _ => []
  | n + 1, bytes => RunFile.read_key (bytes.take 36) :: read_keys n (bytes.drop 36)

namespace EpochLayer

def open_ (seq tip : ℕ) (delta : Option ℤ) (files : Files) : Except IoError EpochLayer :=
  match RunFile.SortedRun.open_ files.run with
  | .error e => .error e
  | .ok run =>
    let del := read_keys (files.del.length / 36) files.del
    .ok { tip, seq, run, del
          delta := delta.getD ((run.count : ℤ) - del.length)
          undos := load_undos files.und }

def probe (l : EpochLayer) (key : RunKey) : Option (Option Coin) :=
  if key ∈ l.del then some none
  else
    match l.run.get_key key with
    | some c => some (some c)
    | none => none

def undo (l : EpochLayer) (height : ℕ) : Option BlockUndo :=
  (l.undos.find? fun row => row.1 == height).map fun row => row.2.2

end EpochLayer

variable {op : OutPoint} {dirty : Delta OutPoint Coin}

omit [PublicKeys] in
theorem outpoint_key_toNat (h : op.vout < 2 ^ 32) :
    (RunFile.outpoint_key op).toNat = op.txid.toNat * 2 ^ 32 + op.vout := by
  rw [RunFile.outpoint_key, BitVec.toNat_append, BitVec.toNat_ofNat, Nat.mod_eq_of_lt h,
    ← Nat.shiftLeft_add_eq_or_of_lt h, Nat.shiftLeft_eq]

omit [PublicKeys] in
theorem outpoint_key_inj {a b : OutPoint} (ha : a.vout < 2 ^ 32) (hb : b.vout < 2 ^ 32)
    (h : RunFile.outpoint_key a = RunFile.outpoint_key b) : a = b := by
  have hnat := congrArg BitVec.toNat h
  rw [outpoint_key_toNat ha, outpoint_key_toNat hb] at hnat
  have htxid : a.txid = b.txid := BitVec.eq_of_toNat_eq (by omega)
  have hvout : a.vout = b.vout := by rw [htxid] at hnat; omega
  cases a
  cases b
  rw [OutPoint.mk.injEq]
  exact ⟨htxid, hvout⟩

omit [PublicKeys] in
theorem exists_outpoint (key : RunKey) : ∃ op : OutPoint, op.vout < 2 ^ 32 ∧ RunFile.outpoint_key op = key := by
  refine ⟨⟨BitVec.ofNat 256 (key.toNat / 2 ^ 32), key.toNat % 2 ^ 32⟩, Nat.mod_lt _ (by norm_num), ?_⟩
  apply BitVec.eq_of_toNat_eq
  rw [outpoint_key_toNat (Nat.mod_lt _ (by norm_num)), BitVec.toNat_ofNat, Nat.mod_eq_of_lt (by omega)]
  exact Nat.div_add_mod' _ _

def live (dirty : Delta OutPoint Coin) : List (OutPoint × Coin) :=
  (ordered dirty).filterMap fun e => e.2.map fun c => (e.1, c)

def deleted (dirty : Delta OutPoint Coin) : List RunKey :=
  ((ordered dirty).filter fun e => e.2.isNone).map fun e => RunFile.outpoint_key e.1

/-- What a flush is handed: `u32` outputs, amounts in range, and a run file within its 64-bit offsets. -/
structure Sane (dirty : Delta OutPoint Coin) : Prop where
  vout : ∀ op e, dirty.lookup op = some e → op.vout < 2 ^ 32
  money : ∀ op c, dirty.lookup op = some (some c) → money_range c.out.value = true
  small : RunFile.HDR + RunFile.records_bytes (RunFile.stored (live dirty)) < 2 ^ 63

omit [PublicKeys] in
theorem mem_ordered {e : Option Coin} : (op, e) ∈ ordered dirty ↔ dirty.lookup op = some e := by
  rw [ordered, List.mem_insertionSort, mem_toList]

omit [PublicKeys] in
theorem mem_live {c : Coin} : (op, c) ∈ live dirty ↔ dirty.lookup op = some (some c) := by
  rw [← mem_ordered, live, List.mem_filterMap]
  constructor
  · rintro ⟨⟨op', e⟩, he, hc⟩
    obtain ⟨c', rfl, hc'⟩ := Option.map_eq_some_iff.mp hc
    cases hc'
    exact he
  · exact fun h => ⟨(op, some c), h, rfl⟩

section

variable (hs : ∀ op e, dirty.lookup op = some e → op.vout < 2 ^ 32)
include hs

omit [PublicKeys] in
theorem mem_deleted (hop : op.vout < 2 ^ 32) :
    RunFile.outpoint_key op ∈ deleted dirty ↔ dirty.lookup op = some none := by
  rw [← mem_ordered, deleted, List.mem_map]
  constructor
  · rintro ⟨⟨op', e⟩, he, hkey⟩
    obtain ⟨he, hnone⟩ := List.mem_filter.mp he
    dsimp only at hkey hnone
    cases outpoint_key_inj (hs op' e (mem_ordered.mp he)) hop hkey
    rwa [Option.isNone_iff_eq_none.mp hnone] at he
  · exact fun h => ⟨(op, none), List.mem_filter.mpr ⟨h, rfl⟩, rfl⟩

omit [PublicKeys] in
theorem ordered_ascending :
    (ordered dirty).Pairwise fun a b => (RunFile.outpoint_key a.1).toNat < (RunFile.outpoint_key b.1).toNat := by
  have htotal : Std.Total fun a b : OutPoint × Option Coin =>
      (RunFile.outpoint_key a.1).toNat ≤ (RunFile.outpoint_key b.1).toNat := ⟨fun a b => le_total _ _⟩
  have htrans : IsTrans (OutPoint × Option Coin) fun a b =>
      (RunFile.outpoint_key a.1).toNat ≤ (RunFile.outpoint_key b.1).toNat := ⟨fun _ _ _ => le_trans⟩
  have hle : (ordered dirty).Pairwise fun a b =>
      (RunFile.outpoint_key a.1).toNat ≤ (RunFile.outpoint_key b.1).toNat := List.pairwise_insertionSort _ _
  have hkeys : ((toList dirty).map Prod.fst).Nodup := by
    have h := dirty.nodupKeys
    rw [List.NodupKeys, List.keys] at h
    simpa [toList, List.map_map, Function.comp_def] using h
  have hne : (ordered dirty).Pairwise fun a b => a.1 ≠ b.1 :=
    List.pairwise_map.mp (((List.perm_insertionSort _ (toList dirty)).map Prod.fst).nodup_iff.mpr hkeys)
  refine (hle.and hne).imp_of_mem fun {a b} ha hb h => lt_of_le_of_ne h.1 fun heq => h.2 ?_
  exact outpoint_key_inj (hs a.1 a.2 (mem_ordered.mp ha)) (hs b.1 b.2 (mem_ordered.mp hb)) (BitVec.eq_of_toNat_eq heq)

theorem live_ascending :
    RunFile.ascending (RunFile.stored (live dirty)) := by
  rw [RunFile.ascending, RunFile.stored, List.pairwise_map]
  refine List.Pairwise.filterMap _ (fun a b hab x hx y hy => ?_) (ordered_ascending hs)
  rw [Option.map_eq_some_iff] at hx hy
  obtain ⟨_, -, rfl⟩ := hx
  obtain ⟨_, -, rfl⟩ := hy
  exact hab

end

theorem write_entries_eq {run run' : RunFile.RunBuilder} {del : List UInt8} {entries : List (OutPoint × Option Coin)}
    (h : RunFile.push_all run (RunFile.stored (entries.filterMap fun e => e.2.map fun c => (e.1, c))) = .ok run') :
    write_entries run del entries =
      .ok (run', del ++ ((entries.filter fun e => e.2.isNone).map fun e => RunFile.outpoint_key e.1).flatMap
        RunFile.key_bytes) := by
  induction entries generalizing run del with
  | nil =>
    cases h
    simp [write_entries]
  | cons e entries ih =>
    obtain ⟨op, _ | c⟩ := e
    · rw [write_entries, ih h]
      simp
    simp only [List.filterMap_cons, Option.map_some, RunFile.stored, List.map_cons, RunFile.push_all] at h
    rw [write_entries]
    cases hp : run.push_wire (RunFile.outpoint_key op) (encode_coin c) with
    | error e => simp [hp] at h
    | ok run₁ =>
      rw [hp] at h
      dsimp only
      rw [ih h]
      simp

omit [PublicKeys] in
theorem read_keys_eq (keys : List RunKey) : read_keys keys.length (keys.flatMap RunFile.key_bytes) = keys := by
  induction keys with
  | nil => rfl
  | cons key keys ih =>
    have htake : ((key :: keys).flatMap RunFile.key_bytes).take 36 = RunFile.key_bytes key := by
      rw [List.flatMap_cons, List.take_left' (RunFile.length_key_bytes key)]
    have hdrop : ((key :: keys).flatMap RunFile.key_bytes).drop 36 = keys.flatMap RunFile.key_bytes := by
      rw [List.flatMap_cons, List.drop_left' (RunFile.length_key_bytes key)]
    rw [List.length_cons, read_keys, htake, hdrop, RunFile.read_key_bytes, ih]

def layer_of (seq tip : ℕ) (delta : Option ℤ) (dirty : Delta OutPoint Coin) (undos : List UndoRow) : EpochLayer where
  tip := tip
  delta := delta.getD ((live dirty).length - (deleted dirty).length)
  seq := seq
  run := RunFile.run_of DEFAULT_STRIDE (RunFile.stored (live dirty))
  del := deleted dirty
  undos := load_undos (undos.flatMap undo_record)

theorem write_epoch_open (hs : Sane dirty) (undos : List UndoRow) : ∃ files, write_epoch dirty undos = .ok files ∧
      ∀ seq tip delta, EpochLayer.open_ seq tip delta files = .ok (layer_of seq tip delta dirty undos) := by
  obtain ⟨b, hpush, hfile⟩ := @RunFile.push_all_file DEFAULT_STRIDE _ (live_ascending hs.vout)
  refine ⟨⟨b.finish, (deleted dirty).flatMap RunFile.key_bytes, undos.flatMap undo_record⟩, ?_, ?_⟩
  · rw [write_epoch, write_entries_eq hpush, List.nil_append]
    rfl
  · intro seq tip delta
    have hlen : ((deleted dirty).flatMap RunFile.key_bytes).length / 36 = (deleted dirty).length := by
      rw [List.length_flatMap]
      simp
    rw [EpochLayer.open_, hfile, RunFile.open_file hs.small]
    simp only [hlen, read_keys_eq]
    rw [layer_of]
    simp [RunFile.run_of, RunFile.stored]

/-- The layer answers every key as the delta does, exactly when lookups of the keys it does not delete read their
coins: `RunFile.FitsFor`. -/
theorem probe_exact_iff (hs : Sane dirty) (seq tip : ℕ) (delta : Option ℤ) (undos : List UndoRow) :
    (∀ op : OutPoint, op.vout < 2 ^ 32 →
        (layer_of seq tip delta dirty undos).probe (RunFile.outpoint_key op) = dirty.lookup op) ↔
      RunFile.FitsFor (fun key => key ∉ deleted dirty) DEFAULT_STRIDE (live dirty) := by
  have hasc := live_ascending hs.vout
  have hmoney : ∀ r ∈ live dirty, money_range r.2.out.value = true := fun r hr => hs.money r.1 r.2 (mem_live.mp hr)
  have hasked : ∀ r ∈ live dirty, RunFile.outpoint_key r.1 ∉ deleted dirty := by
    intro r hr hdel
    have hlive := mem_live.mp hr
    rw [mem_deleted hs.vout (hs.vout _ _ hlive), hlive] at hdel
    cases hdel
  have hpushed : ∀ op : OutPoint, op.vout < 2 ^ 32 → dirty.lookup op ≠ some none →
      RunFile.pushed (live dirty) (RunFile.outpoint_key op) = (dirty.lookup op).bind id := by
    intro op hop hnot
    cases hd : dirty.lookup op with
    | none =>
      refine RunFile.pushed_none fun r hr he => ?_
      obtain ⟨⟨op', c⟩, hmem, rfl⟩ := List.mem_map.mp hr
      have hlive := mem_live.mp hmem
      cases outpoint_key_inj (hs.vout _ _ hlive) hop he
      rw [hd] at hlive
      cases hlive
    | some e =>
      cases e with
      | none => exact absurd hd hnot
      | some c => exact RunFile.pushed_of_mem hasc (mem_live.mpr hd)
  constructor
  · intro h
    refine RunFile.fits_of_run_exact hasc hmoney hs.small hasked fun key hkey => ?_
    obtain ⟨op, hop, rfl⟩ := exists_outpoint key
    have hprobe := h op hop
    rw [EpochLayer.probe, layer_of, if_neg hkey] at hprobe
    have hnot : dirty.lookup op ≠ some none := fun hd => hkey ((mem_deleted hs.vout hop).mpr hd)
    rw [hpushed op hop hnot, ← hprobe]
    split <;> rename_i hget <;> rw [hget] <;> rfl
  · intro h op hop
    rw [EpochLayer.probe, layer_of]
    by_cases hdel : RunFile.outpoint_key op ∈ deleted dirty
    · rw [if_pos hdel, (mem_deleted hs.vout hop).mp hdel]
    rw [if_neg hdel]
    have hnot : dirty.lookup op ≠ some none := fun hd => hdel ((mem_deleted hs.vout hop).mpr hd)
    have hget := RunFile.run_exact_of_fits hasc hmoney hs.small h _ hdel
    rw [hpushed op hop hnot] at hget
    rw [hget]
    cases hd : dirty.lookup op with
    | none => rfl
    | some e =>
      cases e with
      | none => exact absurd hd hnot
      | some c => rfl

end EpochFiles

end AvilaNode
