import AvilaNode.Gcs
import AvilaNode.Mempool
import AvilaNode.MessageCodec

/-! Blocks sent as short ids, and their reconstruction from a pool. -/

namespace AvilaNode

def Mempool.iter_txs (pool : Mempool) : List Transaction := (Layers.toList pool.map).map fun row => row.2.tx

namespace Compact

open ByteStrings FrameCodec Wire

abbrev Slots := List (Option Transaction)

section Keys

variable (sha256 : List UInt8 → Hash256)

def shortid_key (header : BlockHeader) (nonce : BitVec 64) : BitVec 64 × BitVec 64 :=
  let h := (sha256 (header.encode ++ write_word nonce)).to_bytes
  (BitVec.ofNat 64 (value (h.take 8)), BitVec.ofNat 64 (value ((h.drop 8).take 8)))

end Keys

def shortid (key : BitVec 64 × BitVec 64) (wtxid : Wtxid) : BitVec 64 :=
  Gcs.siphash24 key.1 key.2 wtxid.to_bytes &&& 0x0000ffffffffffff

def shortid_bytes (id : BitVec 64) : Vector UInt8 6 := to_array 6 ((le 8 id.toNat).take 6)

def key48 (id : Vector UInt8 6) : BitVec 64 := BitVec.ofNat 64 (value (id.toList ++ [0, 0]))

section Sender

variable [Platform] (sha256 : List UInt8 → Hash256)

def make_cmpctblock (block : Block) (nonce : BitVec 64) : CmpctBlock :=
  match block.transactions with
  | [] => ⟨block.header, nonce, [], []⟩
  | coinbase :: rest =>
    let key := shortid_key sha256 block.header nonce
    ⟨block.header, nonce, rest.map fun tx => shortid_bytes (shortid key (Platform.wtxid tx)), [⟨0, coinbase⟩]⟩

end Sender

structure PartialBlock where
  block_hash : BlockHash
  header : BlockHeader
  slots : Slots
  missing : List (BitVec 32)

inductive Reconstruct where
  | Complete (block : Block)
  | Partial (block : PartialBlock)

def claimable [Platform] (key : BitVec 64 × BitVec 64) (pool : Mempool) : BitVec 64 → List Transaction :=
  pool.iter_txs.foldl (fun queues tx =>
    let id := shortid key (Platform.wtxid tx)
    Function.update queues id (tx :: queues id)) fun _ => []

def put_slot (slots : Slots) (idx : ℕ) (tx : Transaction) : Option Slots :=
  if idx < slots.length then some (slots.set idx (some tx)) else none

def seat (total : ℕ) : List PrefilledTx → ℤ → Slots → Option (Except String Slots)
  | [], _, slots => some (.ok slots)
  | p :: prefilled, prev, slots =>
    let idx := prev + p.index_diff.toNat + 1
    if idx < 0 ∨ total ≤ idx then some (.error "prefilled index out of range")
    else (put_slot slots idx.toNat p.tx).bind (seat total prefilled idx)

def resolve : ℕ → Slots → List (Vector UInt8 6) → (BitVec 64 → List Transaction) →
    Except String (Slots × List (BitVec 32))
  | _, [], _, _ => .ok ([], [])
  | i, some tx :: slots, ids, queues => do
    let (slots, missing) ← resolve (i + 1) slots ids queues
    pure (some tx :: slots, missing)
  | _, none :: _, [], _ => .error "shortid/prefilled layout mismatch"
  | i, none :: slots, id :: ids, queues =>
    match queues (key48 id) with
    | tx :: queue => do
      let (slots, missing) ← resolve (i + 1) slots ids (Function.update queues (key48 id) queue)
      pure (some tx :: slots, missing)
    | [] => do
      let (slots, missing) ← resolve (i + 1) slots ids queues
      pure (none :: slots, BitVec.ofNat 32 i :: missing)

namespace PartialBlock

def is_complete (p : PartialBlock) : Bool := p.slots.all Option.isSome

def into_block (p : PartialBlock) : Option Block :=
  if p.slots.all Option.isSome then some ⟨p.header, p.slots.filterMap id⟩ else none

def outcome (block : PartialBlock) : Option (Except String Reconstruct) :=
  if block.is_complete then block.into_block.map fun b => .ok (.Complete b) else some (.ok (.Partial block))

def begin [Platform] (sha256 : List UInt8 → Hash256) (cb : CmpctBlock) (pool : Mempool) :
    Option (Except String Reconstruct) :=
  let key := shortid_key sha256 cb.header cb.nonce
  let total := cb.shortids.length + cb.prefilled.length
  (seat total cb.prefilled (-1) (List.replicate total none)).bind fun seated =>
    match seated with
    | .error e => some (.error e)
    | .ok slots =>
      match resolve 0 slots cb.shortids (claimable key pool) with
      | .error e => some (.error e)
      | .ok (slots, missing) => outcome ⟨Platform.block_hash cb.header, cb.header, slots, missing⟩

def diffs : ℤ → List (BitVec 32) → List (BitVec 32)
  | _, [] => []
  | prev, idx :: missing => BitVec.ofInt 32 (idx.toNat - prev - 1) :: diffs idx.toNat missing

def getblocktxn (p : PartialBlock) : GetBlockTxn := ⟨p.block_hash, diffs (-1) p.missing⟩

def put_slots : Slots → List (BitVec 32 × Transaction) → Option Slots
  | slots, [] => some slots
  | slots, (idx, tx) :: rest => (put_slot slots idx.toNat tx).bind fun slots => put_slots slots rest

def fill (p : PartialBlock) (txs : List Transaction) : Option PartialBlock :=
  let take := min txs.length p.missing.length
  (put_slots p.slots ((p.missing.take take).zip txs)).map fun slots =>
    { p with slots := slots, missing := p.missing.drop take }

def fills (p : PartialBlock) : List (List Transaction) → Option PartialBlock
  | [] => some p
  | txs :: replies => (p.fill txs).bind fun p => p.fills replies

end PartialBlock

def Reconstruct.finished : Reconstruct → List (List Transaction) → Option Block
  | .Complete block, _ => some block
  | .Partial p, replies => (p.fills replies).bind PartialBlock.into_block

def decoded : ℤ → List ℕ → List ℤ
  | _, [] => []
  | prev, diff :: rest => (prev + diff + 1) :: decoded (prev + diff + 1) rest

def blocktxn (block : Block) (req : GetBlockTxn) : BlockTxn :=
  ⟨req.block_hash, (decoded (-1) (req.indexes.map BitVec.toNat)).filterMap fun idx =>
    if 0 ≤ idx then block.transactions[idx.toNat]? else none⟩

end Compact

end AvilaNode

namespace AvilaNode.Compact

open ByteReader ByteStrings FrameCodec Wire

variable {slots seated : Slots}

theorem put_slot_eq {idx : ℕ} (h : idx < slots.length) (tx : Transaction) :
    put_slot slots idx tx = some (slots.set idx (some tx)) := if_pos h

structure Seated (prev : ℤ) (prefilled : List PrefilledTx) (slots slots' : Slots) : Prop where
  length : slots'.length = slots.length
  holes : slots'.countP Option.isNone + prefilled.length = slots.countP Option.isNone
  seats : List.Forall₂ (fun idx (p : PrefilledTx) => 0 ≤ idx ∧ slots'[idx.toNat]? = some (some p.tx))
    (decoded prev (prefilled.map fun p => p.index_diff.toNat)) prefilled
  kept : ∀ i : ℕ, (i : ℤ) ≤ prev → slots'[i]? = slots[i]?

theorem seat_cases (prefilled : List PrefilledTx) {prev : ℤ} {slots : Slots} (hprev : -1 ≤ prev)
    (hfree : ∀ i : ℕ, prev < i → i < slots.length → slots[i]? = some none) :
    seat slots.length prefilled prev slots = some (.error "prefilled index out of range") ∨
      ∃ slots', seat slots.length prefilled prev slots = some (.ok slots') ∧ Seated prev prefilled slots slots' := by
  induction prefilled generalizing prev slots with
  | nil => exact .inr ⟨slots, rfl, rfl, by simp, by simp [decoded], fun _ _ => rfl⟩
  | cons p prefilled ih =>
    simp only [seat]
    split_ifs with hrange
    · exact .inl rfl
    generalize hidx : prev + (p.index_diff.toNat : ℤ) + 1 = idx at hrange ⊢
    have hlt : idx.toNat < slots.length := by omega
    have hhole : slots[idx.toNat] = none := by
      have h := hfree idx.toNat (by omega) hlt
      rwa [List.getElem?_eq_getElem hlt, Option.some.injEq] at h
    have hcount : (slots.set idx.toNat (some p.tx)).countP Option.isNone + 1 = slots.countP Option.isNone := by
      have hpos : 0 < slots.countP Option.isNone :=
        List.countP_pos_iff.mpr ⟨none, by simpa [hhole] using List.getElem_mem hlt, rfl⟩
      rw [List.countP_set hlt, hhole]
      simp only [Option.isNone_none, Option.isNone_some, if_true, Bool.false_eq_true, if_false]
      omega
    have hrest := @ih idx (slots.set idx.toNat (some p.tx)) (by omega) (by
      intro i hi hil
      rw [List.length_set] at hil
      rw [List.getElem?_set_ne (by omega)]
      exact hfree i (by omega) hil)
    rw [List.length_set] at hrest
    rw [put_slot_eq hlt, Option.bind_some]
    apply hrest.imp_right
    rintro ⟨slots', heq, hs⟩
    refine ⟨slots', heq, ?_, ?_, ?_, ?_⟩
    · rw [hs.length, List.length_set]
    · rw [List.length_cons, ← hcount, ← hs.holes]
      omega
    · simp only [List.map_cons, decoded, hidx]
      refine List.Forall₂.cons ⟨by omega, ?_⟩ hs.seats
      rw [hs.kept idx.toNat (by omega), List.getElem?_set_self hlt]
    · intro i hi
      rw [hs.kept i (by omega), List.getElem?_set_ne (by omega)]

def holes : ℕ → Slots → List ℕ
  | _, [] => []
  | i, some _ :: slots => holes (i + 1) slots
  | i, none :: slots => i :: holes (i + 1) slots

theorem mem_holes {i j : ℕ} : j ∈ holes i slots ↔ i ≤ j ∧ slots[j - i]? = some none := by
  induction slots generalizing i with
  | nil => simp [holes]
  | cons slot slots ih =>
    rcases Nat.lt_trichotomy i j with h | rfl | h
    · have hsub : j - i = j - (i + 1) + 1 := by omega
      cases slot <;> simp only [holes, List.mem_cons, ih, hsub, List.getElem?_cons_succ] <;> grind
    · cases slot <;> simp [holes, ih]
    · cases slot <;> simp only [holes, List.mem_cons, ih] <;> grind

theorem holes_pairwise (i : ℕ) (slots : Slots) : (holes i slots).Pairwise (· < ·) := by
  induction slots generalizing i with
  | nil => exact List.Pairwise.nil
  | cons slot slots ih =>
    cases slot with
    | some tx => exact ih (i + 1)
    | none => exact List.pairwise_cons.mpr ⟨fun j hj => (mem_holes.mp hj).1, ih (i + 1)⟩

theorem hole_lt {j : ℕ} (h : j ∈ holes 0 slots) : j < slots.length := by
  obtain ⟨hj, -⟩ := List.getElem?_eq_some_iff.mp (mem_holes.mp h).2
  exact hj

structure Resolved (i : ℕ) (slots slots' : Slots) (missing : List (BitVec 32)) : Prop where
  kept : List.Forall₂ (fun s s' => ∀ tx, s = some tx → s' = some tx) slots slots'
  missing : missing = (holes i slots').map (BitVec.ofNat 32)

theorem resolve_ok {i : ℕ} {ids : List (Vector UInt8 6)} (queues : BitVec 64 → List Transaction)
    (h : slots.countP Option.isNone ≤ ids.length) :
    ∃ slots' missing, resolve i slots ids queues = .ok (slots', missing) ∧ Resolved i slots slots' missing := by
  induction slots generalizing i ids queues with
  | nil => exact ⟨[], [], rfl, List.Forall₂.nil, rfl⟩
  | cons slot slots ih =>
    cases slot with
    | some tx =>
      obtain ⟨slots', missing, heq, hr⟩ := ih (i := i + 1) queues (by simpa using h)
      refine ⟨some tx :: slots', missing, ?_, hr.kept.cons fun _ => id, hr.missing⟩
      rw [resolve, heq]
      rfl
    | none =>
      cases ids with
      | nil => simp at h
      | cons id ids =>
        have hrest : slots.countP Option.isNone ≤ ids.length := by simpa using h
        rw [resolve]
        cases hq : queues (key48 id) with
        | nil =>
          obtain ⟨slots', missing, heq, hr⟩ := ih (i := i + 1) queues hrest
          refine ⟨none :: slots', BitVec.ofNat 32 i :: missing, ?_, hr.kept.cons (by simp), ?_⟩
          · simp only [heq]
            rfl
          · rw [holes, List.map_cons, hr.missing]
        | cons tx queue =>
          obtain ⟨slots', missing, heq, hr⟩ := ih (i := i + 1) (Function.update queues (key48 id) queue) hrest
          refine ⟨some tx :: slots', missing, ?_, hr.kept.cons (by simp), hr.missing⟩
          simp only [heq]
          rfl

/-- A reconstruction under way, against the layout its prefilled transactions were seated in. From slot 2 ^ 32 on, a
missing index wraps to another slot, and the slot it stands for is never filled. -/
structure Filling (seated : Slots) (p : PartialBlock) : Prop where
  length : p.slots.length = seated.length
  inside : ∀ m ∈ p.missing, m.toNat < seated.length
  held : (∃ i : ℕ, 2 ^ 32 ≤ i ∧ p.slots[i]? = some none) ∨
    ((∀ m ∈ p.missing, seated[m.toNat]? = some none) ∧
      ∀ (i : ℕ) tx, seated[i]? = some (some tx) → p.slots[i]? = some (some tx))

theorem Resolved.filling {missing : List (BitVec 32)} (h : Resolved 0 seated slots missing) (block_hash : BlockHash)
    (header : BlockHeader) : Filling seated ⟨block_hash, header, slots, missing⟩ := by
  have hlen := h.kept.length_eq.symm
  have hmissing : ∀ m ∈ missing, ∃ i ∈ holes 0 slots, m.toNat = i % 2 ^ 32 := by
    intro m hm
    rw [h.missing] at hm
    obtain ⟨i, hi, rfl⟩ := List.mem_map.mp hm
    exact ⟨i, hi, BitVec.toNat_ofNat i 32⟩
  refine ⟨hlen, ?_, ?_⟩
  · intro m hm
    obtain ⟨i, hi, heq⟩ := hmissing m hm
    rw [heq, ← hlen]
    exact (Nat.mod_le i _).trans_lt (hole_lt hi)
  · by_cases hwide : ∃ i ∈ holes 0 slots, 2 ^ 32 ≤ i
    · obtain ⟨i, hi, hw⟩ := hwide
      exact .inl ⟨i, hw, (mem_holes.mp hi).2⟩
    right
    constructor
    · intro m hm
      obtain ⟨i, hi, heq⟩ := hmissing m hm
      have hlt : i < 2 ^ 32 := Nat.lt_of_not_le fun hw => hwide ⟨i, hi, hw⟩
      rw [Nat.mod_eq_of_lt hlt] at heq
      have hi' := hole_lt hi
      have hnone := (mem_holes.mp hi).2
      have hkept := h.kept.get (i := i) (by omega) hi'
      rw [heq, List.getElem?_eq_getElem (by omega)]
      cases hs : seated[i] with
      | none => rfl
      | some tx =>
        have hslot : slots[i] = some tx := hkept tx (by simpa using hs)
        rw [Nat.sub_zero, List.getElem?_eq_getElem hi', hslot] at hnone
        cases hnone
    · intro i tx hs
      obtain ⟨hi, hs⟩ := List.getElem?_eq_some_iff.mp hs
      have hi' : i < slots.length := by omega
      rw [List.getElem?_eq_getElem hi', Option.some.injEq]
      exact h.kept.get hi hi' tx hs

theorem put_slots_keeps (entries : List (BitVec 32 × Transaction)) (hlen : slots.length = seated.length)
    (hin : ∀ e ∈ entries, e.1.toNat < seated.length) :
    ∃ slots', PartialBlock.put_slots slots entries = some slots' ∧ slots'.length = seated.length ∧
      ∀ i : ℕ, (∀ e ∈ entries, e.1.toNat ≠ i) → slots'[i]? = slots[i]? := by
  induction entries generalizing slots with
  | nil => exact ⟨slots, rfl, hlen, fun _ _ => rfl⟩
  | cons e entries ih =>
    rw [List.forall_mem_cons] at hin
    obtain ⟨idx, tx⟩ := e
    have hidx : idx.toNat < slots.length := hlen ▸ hin.1
    obtain ⟨slots', heq, hlen', hkept⟩ := @ih (slots.set idx.toNat (some tx)) (by simpa using hlen) hin.2
    refine ⟨slots', ?_, hlen', ?_⟩
    · rw [PartialBlock.put_slots, put_slot_eq hidx]
      exact heq
    · intro i hi
      rw [List.forall_mem_cons] at hi
      rw [hkept i hi.2, List.getElem?_set_ne hi.1]

variable {p : PartialBlock}

theorem Filling.fill (h : Filling seated p) (txs : List Transaction) :
    ∃ q, p.fill txs = some q ∧ Filling seated q := by
  set take := min txs.length p.missing.length with htake
  have hsub : ∀ e ∈ (p.missing.take take).zip txs, e.1 ∈ p.missing := fun e he =>
    List.mem_of_mem_take (List.of_mem_zip he).1
  obtain ⟨slots', heq, hlen, hkept⟩ := put_slots_keeps ((p.missing.take take).zip txs) h.length
    fun e he => h.inside e.1 (hsub e he)
  refine ⟨{ p with slots := slots', missing := p.missing.drop take }, ?_, hlen, ?_, ?_⟩
  · rw [PartialBlock.fill, ← htake, heq]
    rfl
  · intro m hm
    exact h.inside m (List.mem_of_mem_drop hm)
  · rcases h.held with ⟨i, hi, hs⟩ | ⟨hmissing, hseats⟩
    · refine .inl ⟨i, hi, ?_⟩
      rw [hkept i fun e _ => (e.1.isLt.trans_le hi).ne, hs]
    refine .inr ⟨fun m hm => hmissing m (List.mem_of_mem_drop hm), ?_⟩
    intro i tx hs
    rw [hkept i, hseats i tx hs]
    rintro e he rfl
    rw [hmissing e.1 (hsub e he)] at hs
    cases hs

theorem Filling.fills (h : Filling seated p) (replies : List (List Transaction)) :
    ∃ q, p.fills replies = some q ∧ Filling seated q := by
  induction replies generalizing p with
  | nil => exact ⟨p, rfl, h⟩
  | cons txs replies ih =>
    obtain ⟨q, hq, hf⟩ := h.fill txs
    rw [PartialBlock.fills, hq]
    exact ih hf

theorem into_block_eq {block : Block} (h : p.into_block = some block) :
    p.header = block.header ∧ p.slots = block.transactions.map some := by
  unfold PartialBlock.into_block at h
  split_ifs at h with hall
  rw [← Option.some.inj h]
  refine ⟨rfl, ?_⟩
  have hsome : ∀ s ∈ p.slots, s.isSome := List.all_eq_true.mp hall
  generalize p.slots = slots at hsome ⊢
  induction slots with
  | nil => rfl
  | cons s slots ih =>
    rw [List.forall_mem_cons] at hsome
    obtain ⟨tx, rfl⟩ := Option.isSome_iff_exists.mp hsome.1
    simpa using ih hsome.2

theorem into_block_of_full {txs : List Transaction} (h : p.slots = txs.map some) :
    p.into_block = some ⟨p.header, txs⟩ := by
  unfold PartialBlock.into_block
  rw [h, if_pos (by simp), List.filterMap_map]
  simp

theorem Filling.into_block (h : Filling seated p) {block : Block} (hb : p.into_block = some block) :
    block.transactions.length = seated.length ∧
      ∀ (i : ℕ) tx, seated[i]? = some (some tx) → block.transactions[i]? = some tx := by
  obtain ⟨-, hslots⟩ := into_block_eq hb
  refine ⟨by rw [← h.length, hslots, List.length_map], ?_⟩
  intro i tx hs
  rcases h.held with ⟨j, -, hj⟩ | ⟨-, hseats⟩
  · rw [hslots] at hj
    simp at hj
  · have hi := hseats i tx hs
    rw [hslots] at hi
    simpa using hi

end AvilaNode.Compact
