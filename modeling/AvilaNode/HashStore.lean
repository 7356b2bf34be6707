import AvilaNode.BlockChecks
import AvilaNode.CoinCodec
import AvilaNode.Layers
import AvilaNode.LinearProbing
import Mathlib.Data.Nat.Bitwise

/-! The hash-indexed coin store: an index of slots probed linearly, and a log for the records too long for a slot. -/

namespace AvilaNode.HashCoins

open ByteStrings CoinCodec Layers

def DAT_HDR : ℕ := 32

def PAYLOAD : ℕ := 56

def MAX_LOAD_NUM : ℕ := 7

def MAX_LOAD_DEN : ℕ := 10

def INIT_CAP : ℕ := 1024

structure Sip where
  v0 : BitVec 64
  v1 : BitVec 64
  v2 : BitVec 64
  v3 : BitVec 64

namespace Sip

def round (v : Sip) : Sip :=
  let v0 := v.v0 + v.v1
  let v1 := v.v1.rotateLeft 13 ^^^ v0
  let v0 := v0.rotateLeft 32
  let v2 := v.v2 + v.v3
  let v3 := v.v3.rotateLeft 16 ^^^ v2
  let v0 := v0 + v3
  let v3 := v3.rotateLeft 21 ^^^ v0
  let v2 := v2 + v1
  let v1 := v1.rotateLeft 17 ^^^ v2
  let v2 := v2.rotateLeft 32
  ⟨v0, v1, v2, v3⟩

def absorb (v : Sip) (m : BitVec 64) : Sip :=
  let v := { v with v3 := v.v3 ^^^ m }.round
  { v with v0 := v.v0 ^^^ m }

end Sip

def sip13b (parts : List (List UInt8)) (k0 k1 : BitVec 64) : BitVec 64 :=
  let bytes := parts.flatten
  let words := bytes.length / 8
  let v : Sip := ⟨k0 ^^^ 0x736f6d6570736575, k1 ^^^ 0x646f72616e646f6d, k0 ^^^ 0x6c7967656e657261,
    k1 ^^^ 0x7465646279746573⟩
  let v := (List.range words).foldl (fun v i => v.absorb (BitVec.ofNat 64 (value ((bytes.drop (8 * i)).take 8)))) v
  let v := v.absorb (BitVec.ofNat 64 (value (bytes.drop (8 * words)) + 0x100000000000000 * (bytes.length % 256)))
  let v := { v with v2 := v.v2 ^^^ 0xff }.round.round
  v.v0 ^^^ v.v1 ^^^ v.v2 ^^^ v.v3

def key_of (op : OutPoint) : List UInt8 := op.txid.to_bytes ++ le 4 op.vout

def sip13 (key : OutPoint) (k0 k1 : BitVec 64) : ℕ := (sip13b [key_of key] k0 k1).toNat

def rec_tag (key : OutPoint) (bytes : List UInt8) (k0 k1 : BitVec 64) : ℕ :=
  ((sip13b [key_of key, bytes] k0 k1).setWidth 32).toNat

inductive Rec where
  | inline (stored : List UInt8)
  | spilled (off len : ℕ)
deriving DecidableEq, Repr

structure Slot where
  key : OutPoint
  slot_rec : Rec
deriving DecidableEq, Repr

structure IdxHeader where
  cap : ℕ
  count : ℕ
  k0 : BitVec 64
  k1 : BitVec 64
  tip : ℕ
  generation : ℕ
deriving DecidableEq, Repr

structure Idx where
  header : IdxHeader
  slots : List (Option Slot)
deriving DecidableEq, Repr

/-- `coins.dat`; offsets count its header. -/
structure Dat where
  generation : ℕ
  log : List UInt8
deriving DecidableEq, Repr

inductive HashError where
  | InvalidData (message : String)
  | UnexpectedEof
  /-- A loop that goes round without end. -/
  | Spins
deriving DecidableEq, Repr

def Idx.slot (idx : Idx) (i : ℕ) : Option Slot := idx.slots[i]?.join

namespace Dat

def len (dat : Dat) : ℕ := DAT_HDR + dat.log.length

def read_exact_at (dat : Dat) (len off : ℕ) : Option (List UInt8) :=
  if off + len ≤ dat.len then some ((dat.log.drop (off - DAT_HDR)).take len) else none

def write_all_at (dat : Dat) (bytes : List UInt8) (off : ℕ) : Dat :=
  { dat with log := dat.log.take (off - DAT_HDR) ++ bytes ++ dat.log.drop (off - DAT_HDR + bytes.length) }

def record (dat : Dat) : Rec → Option (List UInt8)
  | .inline stored => some stored
  | .spilled off len => dat.read_exact_at len off

end Dat

structure HashStore where
  tip : ℕ
  generation : ℕ
  k0 : BitVec 64
  k1 : BitVec 64
  count : ℕ
  cap : ℕ
  idx : Idx
  dat : Dat

def wrap (cap i : ℕ) : ℕ := i &&& (cap - 1)

def probe_from (cap : ℕ) (slot : ℕ → Option Slot) (key : OutPoint) : ℕ → ℕ → Except HashError (ℕ × Bool)
  | 0, _ => .error .Spins
  | fuel + 1, i =>
    match slot i with
    | none => .ok (i, false)
    | some s => if s.key = key then .ok (i, true) else probe_from cap slot key fuel (wrap cap (i + 1))

abbrev Stage := Table ℕ (Option Slot)

structure Commit where
  stage : Stage
  dat : Dat
  dat_appends : List UInt8
  delta : ℤ

namespace HashStore

def home (store : HashStore) (cap : ℕ) (key : OutPoint) : ℕ := sip13 key store.k0 store.k1 &&& (cap - 1)

def probe (store : HashStore) (key : OutPoint) : Except HashError (ℕ × Bool) :=
  probe_from store.cap store.idx.slot key store.cap (store.home store.cap key)

def slot_at (store : HashStore) (stage : Stage) (i : ℕ) : Option Slot := (stage.lookup i).getD (store.idx.slot i)

def probe_staged (store : HashStore) (stage : Stage) (key : OutPoint) : Except HashError (ℕ × Bool) :=
  probe_from store.cap (store.slot_at stage) key store.cap (store.home store.cap key)

section

variable [PublicKeys]

def checked (store : HashStore) (key : OutPoint) (stored : List UInt8) : Option Coin :=
  if stored.length < 4 ∨ value (stored.take 4) ≠ rec_tag key (stored.drop 4) store.k0 store.k1 then none
  else decode_coin (stored.drop 4)

def get (store : HashStore) (key : OutPoint) : Option Coin :=
  match store.probe key with
  | .ok (i, true) =>
    match store.idx.slot i with
    | none => none
    | some s => (store.dat.record s.slot_rec).bind (store.checked key)
  | _ => none

def iter_coins (store : HashStore) : List (OutPoint × Coin) :=
  store.idx.slots.filterMap fun slot =>
    slot.bind fun s => ((store.dat.record s.slot_rec).bind (store.checked s.key)).map fun coin => (s.key, coin)

end

def have_ (store : HashStore) (key : OutPoint) : Bool :=
  match store.probe key with
  | .ok (_, found) => found
  | .error _ => false

def tip_watermark (store : HashStore) : ℕ := store.tip

def len (store : HashStore) : ℕ := store.count

def stored [PublicKeys] (store : HashStore) (key : OutPoint) (coin : Coin) : List UInt8 :=
  le 4 (rec_tag key (encode_coin coin) store.k0 store.k1) ++ encode_coin coin

/-- A record staged in slot `i`, or staged there and appended to the log. -/
def stage_record (c : Commit) (i : ℕ) (key : OutPoint) (stored : List UInt8) : Commit :=
  if stored.length ≤ PAYLOAD then { c with stage := c.stage.insert i (some ⟨key, .inline stored⟩) }
  else
    { c with
      stage := c.stage.insert i
        (some ⟨key, .spilled (c.dat.len + c.dat_appends.length) (stored.length % 0x100000000)⟩)
      dat_appends := c.dat_appends ++ stored }

def overwrite (c : Commit) (i : ℕ) (s : Slot) (stored : List UInt8) : Commit :=
  match s.slot_rec with
  | .inline _ => stage_record c i s.key stored
  | .spilled off old_len =>
    if PAYLOAD < stored.length ∧ stored.length % 0x100000000 ≤ old_len then
      { c with
        dat := c.dat.write_all_at stored off
        stage := if stored.length % 0x100000000 ≠ old_len then
          c.stage.insert i (some { s with slot_rec := .spilled off (stored.length % 0x100000000) }) else c.stage }
    else stage_record c i s.key stored

def put [PublicKeys] (store : HashStore) (c : Commit) (key : OutPoint) (coin : Coin) : Except HashError Commit := do
  let (i, found) ← store.probe_staged c.stage key
  if found then
    match store.slot_at c.stage i with
    | none => pure c
    | some s => pure (overwrite c i s (store.stored key coin))
  else
    let c := stage_record c i key (store.stored key coin)
    pure { c with delta := c.delta + 1 }

def shift_back (store : HashStore) : ℕ → Stage → ℕ → ℕ → Except HashError Stage
  | 0, _, _, _ => .error .Spins
  | fuel + 1, stage, hole, j =>
    match store.slot_at stage j with
    | none => .ok (stage.insert hole none)
    | some s =>
      let home := store.home store.cap s.key
      if if hole < j then home ≤ hole ∨ j < home else home ≤ hole ∧ j < home then
        shift_back store fuel (stage.insert hole (some s)) j (wrap store.cap (j + 1))
      else shift_back store fuel stage hole (wrap store.cap (j + 1))

def delete (store : HashStore) (c : Commit) (key : OutPoint) : Except HashError Commit := do
  let (i, found) ← store.probe_staged c.stage key
  if found then
    let stage ← store.shift_back store.cap c.stage i (wrap store.cap (i + 1))
    pure { c with stage := stage, delta := c.delta - 1 }
  else pure c

def commit_entry [PublicKeys] (store : HashStore) (c : Commit) : OutPoint × Option Coin → Except HashError Commit
  | (op, some coin) => store.put c op coin
  | (op, none) => store.delete c op

def double_until (need : ℕ) : ℕ → ℕ → Except HashError ℕ
  | 0, _ => .error .Spins
  | fuel + 1, cap => if cap * MAX_LOAD_NUM < need * MAX_LOAD_DEN then double_until need fuel (cap * 2) else .ok cap

def vacant_from (cap : ℕ) (slots : List (Option Slot)) : ℕ → ℕ → Except HashError ℕ
  | 0, _ => .error .Spins
  | fuel + 1, i =>
    match slots[i]?.join with
    | none => .ok i
    | some _ => vacant_from cap slots fuel (wrap cap (i + 1))

def rehash (store : HashStore) (cap : ℕ) (slots : List (Option Slot)) : Option Slot →
    Except HashError (List (Option Slot))
  | none => .ok slots
  | some s => (vacant_from cap slots cap (store.home cap s.key)).map fun i => slots.set i (some s)

def grown (store : HashStore) (need : ℕ) : Except HashError Idx := do
  let new_cap ← double_until need (need * MAX_LOAD_DEN + 1) (store.cap * 2)
  let slots ← store.idx.slots.foldlM (store.rehash new_cap) (List.replicate new_cap none)
  pure ⟨⟨new_cap, store.count, store.k0, store.k1, 0, 0⟩, slots⟩

def maybe_grow_locked (store : HashStore) (pending : ℕ) : Except HashError HashStore :=
  let need := store.count + pending
  if need * MAX_LOAD_DEN ≤ store.cap * MAX_LOAD_NUM then .ok store
  else (store.grown need).map fun idx => { store with idx := idx, cap := idx.header.cap }

def reserve (store : HashStore) (additional : ℕ) : Except HashError HashStore := store.maybe_grow_locked additional

def write_slots (slots : List (Option Slot)) (stage : Stage) : List (Option Slot) :=
  ((toList stage).insertionSort fun a b => a.1 ≤ b.1).foldl (fun slots w => slots.set w.1 w.2) slots

def write_commit (store : HashStore) (c : Commit) (tip : Option ℕ) : HashStore :=
  let count := (store.count + c.delta).toNat
  { store with
    count := count
    tip := tip.getD store.tip
    dat := { c.dat with log := c.dat.log ++ c.dat_appends }
    idx := ⟨{ store.idx.header with count := count, tip := tip.getD store.idx.header.tip },
      write_slots store.idx.slots c.stage⟩ }

def commit_coins [PublicKeys] (store : HashStore) (dirty : Delta OutPoint Coin) (tip : Option ℕ) :
    Except HashError (ℤ × HashStore) := do
  let store ← store.maybe_grow_locked dirty.entries.length
  let c ← (toList dirty).foldlM store.commit_entry ⟨∅, store.dat, [], 0⟩
  pure (c.delta, store.write_commit c tip)

def rewrite (dat : Dat) (state : List UInt8 × List (Option Slot)) : Option Slot →
    Except HashError (List UInt8 × List (Option Slot))
  | some ⟨key, .spilled off len⟩ =>
    match dat.read_exact_at len off with
    | none => .error .UnexpectedEof
    | some bytes => .ok (state.1 ++ bytes, state.2 ++ [some ⟨key, .spilled (DAT_HDR + state.1.length) len⟩])
  | slot => .ok (state.1, state.2 ++ [slot])

def compacted (store : HashStore) : Except HashError (Idx × Dat) := do
  let (log, slots) ← store.idx.slots.foldlM (rewrite store.dat) ([], [])
  pure (⟨{ store.idx.header with generation := store.generation + 1 }, slots⟩, ⟨store.generation + 1, log⟩)

def compact (store : HashStore) : Except HashError HashStore :=
  store.compacted.map fun files => { store with generation := store.generation + 1, idx := files.1, dat := files.2 }

end HashStore

structure Disk where
  idx : Option Idx
  dat : Option Dat
  dat_new : Option Dat
  idx_new : Option Idx
  idx_grow : Option Idx

namespace HashStore

def U64_MAX : ℕ := 0xffffffffffffffff

def reconcile_generations (disk : Disk) (idx_gen dat_gen : ℕ) : Except HashError (ℕ × Disk) :=
  if idx_gen = dat_gen then .ok (idx_gen, { disk with dat_new := none, idx_new := none, idx_grow := none })
  else if dat_gen < idx_gen then
    match disk.dat_new with
    | some dat =>
      if dat.generation = idx_gen then .ok (idx_gen, { disk with dat := some dat, dat_new := none })
      else .error (.InvalidData "coinsdb: torn compact")
    | none => .error (.InvalidData "coinsdb: torn compact")
  else
    match disk.idx_new with
    | some idx =>
      if idx.header.generation = dat_gen then .ok (dat_gen, { disk with idx := some idx, idx_new := none })
      else .error (.InvalidData "coinsdb: torn compact")
    | none => .error (.InvalidData "coinsdb: torn compact")

def open_dir (disk : Disk) (k0 k1 : BitVec 64) : Except HashError (HashStore × Disk) :=
  match disk.idx with
  | none =>
    let idx : Idx := ⟨⟨INIT_CAP, 0, k0, k1, U64_MAX, 0⟩, List.replicate INIT_CAP none⟩
    let dat : Dat := ⟨0, (disk.dat.map Dat.log).getD []⟩
    .ok (⟨U64_MAX, 0, k0, k1, 0, INIT_CAP, idx, dat⟩, { disk with idx := some idx, dat := some dat })
  | some idx =>
    match disk.dat with
    | none => .error .UnexpectedEof
    | some dat => do
      let (generation, disk) ← reconcile_generations disk idx.header.generation dat.generation
      pure (⟨idx.header.tip, generation, idx.header.k0, idx.header.k1, idx.header.count, idx.header.cap,
        disk.idx.getD idx, disk.dat.getD dat⟩, disk)

end HashStore

end AvilaNode.HashCoins

namespace AvilaNode.HashCoins

open ByteStrings CoinCodec Function Layers LinearProbing

variable {cap i : ℕ}

theorem and_pred (hcap : ∃ e, cap = 2 ^ e) (i : ℕ) : i &&& (cap - 1) = i % cap := by
  obtain ⟨e, rfl⟩ := hcap
  exact Nat.and_two_pow_sub_one_eq_mod i e

theorem wrap_eq_next (hcap : ∃ e, cap = 2 ^ e) (hi : i < cap) : wrap cap (i + 1) = next cap i := by
  rw [wrap, and_pred hcap, next]
  split_ifs with h
  · rw [h, Nat.mod_self]
  · exact Nat.mod_eq_of_lt (by omega)

def outcome {β : Type} (r : Option β) : Except HashError β := r.elim (.error .Spins) .ok

theorem probe_from_eq (hcap : ∃ e, cap = 2 ^ e) (slot : ℕ → Option Slot) (key : OutPoint) (fuel : ℕ)
    (hi : i < cap) : probe_from cap slot key fuel i = outcome (LinearProbing.probe cap Slot.key slot key fuel i) := by
  induction fuel generalizing i with
  | zero => rfl
  | succ fuel ih =>
    rw [probe_from, LinearProbing.probe]
    cases slot i with
    | none => rfl
    | some s =>
      dsimp only
      split_ifs with hkey
      · rfl
      · rw [wrap_eq_next hcap hi, ih (next_lt hi)]

theorem vacant_from_eq (hcap : ∃ e, cap = 2 ^ e) (slots : List (Option Slot)) (fuel : ℕ) (hi : i < cap) :
    HashStore.vacant_from cap slots fuel i = outcome (vacant cap (fun i => slots[i]?.join) fuel i) := by
  induction fuel generalizing i with
  | zero => rfl
  | succ fuel ih =>
    rw [HashStore.vacant_from, vacant]
    cases slots[i]?.join with
    | none => rfl
    | some s =>
      rw [wrap_eq_next hcap hi, ih (next_lt hi)]

namespace HashStore

variable {store : HashStore}

theorem home_lt (hcap : ∃ e, cap = 2 ^ e) (key : OutPoint) : store.home cap key < cap := by
  have hpos : 0 < cap := by
    obtain ⟨e, rfl⟩ := hcap
    exact Nat.two_pow_pos e
  rw [home, and_pred hcap]
  exact Nat.mod_lt _ hpos

theorem probe_eq (hcap : ∃ e, store.cap = 2 ^ e) (key : OutPoint) : store.probe key =
    outcome (LinearProbing.probe store.cap Slot.key store.idx.slot key store.cap (store.home store.cap key)) :=
  probe_from_eq hcap _ _ _ (home_lt hcap key)

theorem probe_staged_eq (hcap : ∃ e, store.cap = 2 ^ e) (stage : Stage) (key : OutPoint) :
    store.probe_staged stage key =
    outcome (LinearProbing.probe store.cap Slot.key (store.slot_at stage) key store.cap (store.home store.cap key)) :=
  probe_from_eq hcap _ _ _ (home_lt hcap key)

@[simp] theorem slot_at_empty (store : HashStore) : store.slot_at ∅ = store.idx.slot := by
  funext i
  simp [slot_at]

theorem slot_at_insert (store : HashStore) (stage : Stage) (i : ℕ) (s : Option Slot) :
    store.slot_at (stage.insert i s) = update (store.slot_at stage) i s := by
  funext j
  rw [slot_at, lookup_insert_eq]
  by_cases h : j = i
  · subst h
    simp
  · rw [if_neg h, update_of_ne h, slot_at]

def Inside (store : HashStore) (stage : Stage) : Prop := ∀ i, (stage.lookup i).isSome → i < store.cap

variable {stage : Stage} {j : ℕ}

theorem Inside.insert (h : store.Inside stage) (hi : i < store.cap) (s : Option Slot) :
    store.Inside (stage.insert i s) := by
  intro j hj
  rw [lookup_insert_eq] at hj
  split_ifs at hj with hji
  · rwa [hji]
  · exact h j hj

theorem shift_back_eq (hcap : ∃ e, store.cap = 2 ^ e) (hin : store.Inside stage) {fuel hole hole' : ℕ}
    (hhole : hole < store.cap) (hj : j < store.cap) {t' : ℕ → Option Slot}
    (h : shift store.cap Slot.key (store.home store.cap) fuel (store.slot_at stage) hole j = some (t', hole')) :
    ∃ stage', store.shift_back fuel stage hole j = .ok stage' ∧ store.slot_at stage' = update t' hole' none ∧
      store.Inside stage' := by
  induction fuel generalizing stage hole j with
  | zero => cases h
  | succ fuel ih =>
    rw [shift] at h
    rw [shift_back]
    cases hslot : store.slot_at stage j with
    | none =>
      rw [hslot] at h
      cases h
      exact ⟨_, rfl, slot_at_insert store stage _ none, hin.insert hhole none⟩
    | some s =>
      rw [hslot] at h
      dsimp only at h ⊢
      rw [wrap_eq_next hcap hj]
      by_cases hcross : Crossed hole j (store.home store.cap s.key)
      · rw [if_pos hcross, ← slot_at_insert] at h
        rw [Crossed] at hcross
        rw [if_pos hcross]
        exact ih (hin.insert hhole _) hj (next_lt hj) h
      · rw [if_neg hcross] at h
        rw [Crossed] at hcross
        rw [if_neg hcross]
        exact ih hin hhole (next_lt hj) h

theorem length_sets (ws : List (ℕ × Option Slot)) (slots : List (Option Slot)) :
    (ws.foldl (fun slots w => slots.set w.1 w.2) slots).length = slots.length := by
  induction ws generalizing slots with
  | nil => rfl
  | cons w ws ih => rw [List.foldl_cons, ih, List.length_set]

variable {ws : List (ℕ × Option Slot)}

theorem sets_other (h : ∀ w ∈ ws, w.1 ≠ j) (slots : List (Option Slot)) :
    (ws.foldl (fun slots w => slots.set w.1 w.2) slots)[j]? = slots[j]? := by
  induction ws generalizing slots with
  | nil => rfl
  | cons w ws ih =>
    rw [List.forall_mem_cons] at h
    rw [List.foldl_cons, ih h.2, List.getElem?_set_ne h.1]

theorem sets_mem {s : Option Slot} (hnodup : (ws.map Prod.fst).Nodup) (h : (j, s) ∈ ws) {slots : List (Option Slot)}
    (hj : j < slots.length) :
    (ws.foldl (fun slots w => slots.set w.1 w.2) slots)[j]? = some s := by
  induction ws generalizing slots with
  | nil => cases h
  | cons w ws ih =>
    rw [List.map_cons, List.nodup_cons] at hnodup
    rw [List.foldl_cons]
    rcases List.mem_cons.mp h with rfl | h
    · rw [sets_other fun w hw heq => hnodup.1 (List.mem_map.mpr ⟨w, hw, heq⟩), List.getElem?_set_self hj]
    · exact ih hnodup.2 h (by rwa [List.length_set])

theorem length_write_slots (slots : List (Option Slot)) (stage : Stage) :
    (write_slots slots stage).length = slots.length := length_sets _ _

theorem write_slots_eq (hlen : store.idx.slots.length = store.cap) (hin : store.Inside stage) (j : ℕ) :
    (write_slots store.idx.slots stage)[j]?.join = store.slot_at stage j := by
  have hmem : ∀ w, w ∈ (toList stage).insertionSort (fun a b => a.1 ≤ b.1) ↔ stage.lookup w.1 = some w.2 := by
    intro w
    rw [List.mem_insertionSort]
    exact mem_toList
  have hnodup : (((toList stage).insertionSort fun a b => a.1 ≤ b.1).map Prod.fst).Nodup := by
    rw [((List.perm_insertionSort _ (toList stage)).map Prod.fst).nodup_iff, toList, List.map_map]
    exact stage.nodupKeys
  rw [slot_at]
  cases hlookup : stage.lookup j with
  | none =>
    rw [write_slots, sets_other]
    · rfl
    · rintro w hw rfl
      rw [(hmem w).mp hw] at hlookup
      cases hlookup
  | some s =>
    have hj := hin j (by rw [hlookup]; rfl)
    rw [write_slots, sets_mem hnodup ((hmem (j, s)).mpr hlookup) (by rwa [hlen])]
    rfl

end HashStore

end AvilaNode.HashCoins
