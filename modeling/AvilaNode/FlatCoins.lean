import AvilaNode.MerkleBinding
import AvilaNode.OpenAddressing
import AvilaNode.TableRows
import Mathlib.Data.Nat.Log

/-! The flat mirror of the committed coins: open-addressed slots, a pool for long scripts, rebuilds. -/

namespace AvilaNode

open ByteStrings Layers OpenAddressing

abbrev FlatKey := List UInt8

def FLAG_USED : UInt32 := (1 : UInt32) <<< 31
def FLAG_TOMB : UInt32 := (1 : UInt32) <<< 30
def FLAG_SPILL : UInt32 := (1 : UInt32) <<< 29
def FLAG_COINBASE : UInt32 := 1
def SPK_LEN_SHIFT : UInt32 := 2
def SPK_LEN_MASK : UInt32 := (0x3f : UInt32) <<< 2
def INLINE_SPK : ℕ := 40

/-- The 40 script bytes of a slot, as its spill flag reads them. A `usize` is a `u64`. -/
inductive SlotBody where
  | inline (bytes : List UInt8)
  | spilled (off : ℕ) (len : UInt32)
deriving DecidableEq

structure Slot where
  key : FlatKey
  value : ℤ
  height : ℕ
  flags : UInt32
  spk : SlotBody
deriving DecidableEq

namespace Slot

def default : Slot := ⟨List.replicate 36 0, 0, 0, 0, .inline (List.replicate INLINE_SPK 0)⟩

def is_used (s : Slot) : Bool := s.flags &&& FLAG_USED != 0

def is_tomb (s : Slot) : Bool := s.flags &&& FLAG_TOMB != 0

def is_live (s : Slot) : Bool := s.is_used && !s.is_tomb

def is_dead (s : Slot) : Bool := s.is_used && s.is_tomb

end Slot

def flat_key (op : OutPoint) : FlatKey := op.txid.to_bytes ++ le 4 op.vout

def flat_hash (key : FlatKey) : ℕ :=
  let lo := value (key.take 8)
  let v := value ((key.drop 32).take 4)
  (lo * 0x9E3779B97F4A7C15 + v) % 2 ^ 64

def outpoint_of_key (key : FlatKey) : OutPoint :=
  ⟨BitVec.ofNat 256 (value (key.take 32).reverse), value (key.drop 32)⟩

def coin_in (s : Slot) (pool : List UInt8) : Coin :=
  let spk :=
    match s.spk with
    | .spilled off len => if s.flags &&& FLAG_SPILL != 0 then (pool.drop off).take len.toNat else []
    | .inline bytes =>
      if s.flags &&& FLAG_SPILL != 0 then [] else bytes.take ((s.flags &&& SPK_LEN_MASK) >>> SPK_LEN_SHIFT).toNat
  ⟨⟨s.value, spk⟩, s.height, s.flags &&& FLAG_COINBASE != 0⟩

structure FlatCoins where
  slots : List Slot
  mask : ℕ
  live : ℕ
  tomb : ℕ
  pool : List UInt8

/-- `(n as f64 / 0.7) as usize`: for the counts a table can have the rounding never reaches an integer. -/
def at_load (n : ℕ) : ℕ := n * 10 / 7

def next_power_of_two (n : ℕ) : ℕ := 2 ^ Nat.clog 2 n

namespace FlatCoins

def empty (n : ℕ) (pool : List UInt8) : FlatCoins := ⟨List.replicate n Slot.default, n - 1, 0, 0, pool⟩

def with_capacity (cap : ℕ) : FlatCoins := empty (max (next_power_of_two (at_load cap)) 16) []

def len (t : FlatCoins) : ℕ := t.live

def slot_of (key : FlatKey) (coin : Coin) (pool : List UInt8) : Slot × List UInt8 :=
  let spk := coin.out.script_pubkey
  let flags := FLAG_USED ||| (if coin.coinbase then FLAG_COINBASE else 0)
  if spk.length ≤ INLINE_SPK then
    (⟨key, coin.out.value, coin.height, flags ||| (UInt32.ofNat spk.length <<< SPK_LEN_SHIFT),
      .inline (spk ++ List.replicate (INLINE_SPK - spk.length) 0)⟩, pool)
  else
    (⟨key, coin.out.value, coin.height, flags ||| FLAG_SPILL, .spilled pool.length (UInt32.ofNat spk.length)⟩,
      pool ++ spk)

def write_slot (t : FlatCoins) (i : ℕ) (key : FlatKey) (coin : Coin) : FlatCoins :=
  let (slot, pool) := slot_of key coin t.pool
  { t with slots := t.slots.set i slot, pool }

/-- A loop over the slots from a key's home: a round without a stop would repeat forever. -/
def probe_from (t : FlatCoins) (stop : Slot → Bool) (key : FlatKey) : Option ℕ :=
  probe stop t.slots t.mask t.slots.length (flat_hash key &&& t.mask)

/-- `insert` up to its rebuild, and whether the slot was unused. `none`: the probe never ends. -/
def place (t : FlatCoins) (op : OutPoint) (coin : Coin) : Option (FlatCoins × Bool) :=
  let k := flat_key op
  match t.probe_from (fun s => !s.is_used || s.key == k) k with
  | none => none
  | some i =>
    match t.slots[i]? with
    | none => none
    | some s =>
      if s.is_used then
        if s.is_tomb then some ({ t with tomb := t.tomb - 1, live := t.live + 1 }.write_slot i k coin, false)
        else some (t.write_slot i k coin, false)
      else some ({ t with live := t.live + 1 }.write_slot i k coin, true)

def insert_all (insert : FlatCoins → OutPoint → Coin → Option FlatCoins) : List Slot → FlatCoins → Option FlatCoins
  | [], fresh => some fresh
  | s :: slots, fresh =>
    if s.is_used && !s.is_tomb then
      match insert fresh (outpoint_of_key s.key) (coin_in s fresh.pool) with
      | none => none
      | some fresh => insert_all insert slots fresh
    else insert_all insert slots fresh

def maybe_rebuild (insert : FlatCoins → OutPoint → Coin → Option FlatCoins) (t : FlatCoins) : Option FlatCoins :=
  let occupied := t.live + t.tomb
  let grow : Bool := t.slots.length * 7 < occupied * 10
  let compact : Bool := !grow && t.slots.length < t.tomb * 4
  if !grow && !compact then some t
  else
    let n := max (next_power_of_two (if grow then at_load (t.live * 2) else t.slots.length)) 16
    insert_all insert t.slots (empty n t.pool)

/-- `insert`, whose rebuild inserts again; `none` also where rebuilds nest deeper than `depth`. -/
def insert_deep : ℕ → FlatCoins → OutPoint → Coin → Option FlatCoins
  | depth, t, op, coin =>
    match t.place op coin with
    | none => none
    | some (t, false) => some t
    | some (t, true) =>
      match depth with
      | 0 => t.maybe_rebuild fun _ _ _ => none
      | depth + 1 => t.maybe_rebuild (insert_deep depth)

def insert (t : FlatCoins) (op : OutPoint) (coin : Coin) : Option FlatCoins := t.insert_deep 1 op coin

def get (t : FlatCoins) (op : OutPoint) : Option (Option Coin) :=
  let k := flat_key op
  match t.probe_from (fun s => !s.is_used || (!s.is_tomb && s.key == k)) k with
  | none => none
  | some i =>
    match t.slots[i]? with
    | none => none
    | some s => if s.is_used then some (some (coin_in s t.pool)) else some none

def have_ (t : FlatCoins) (op : OutPoint) : Option Bool :=
  let k := flat_key op
  match t.probe_from (fun s => !s.is_used || (!s.is_tomb && s.key == k)) k with
  | none => none
  | some i =>
    match t.slots[i]? with
    | none => none
    | some s => some s.is_used

def remove (t : FlatCoins) (op : OutPoint) : Option FlatCoins :=
  let k := flat_key op
  match t.probe_from (fun s => !s.is_used || (!s.is_tomb && s.key == k)) k with
  | none => none
  | some i =>
    match t.slots[i]? with
    | none => none
    | some s =>
      if s.is_used then
        some { t with slots := t.slots.set i { s with flags := s.flags ||| FLAG_TOMB }, live := t.live - 1, tomb :=
          t.tomb + 1 }
      else some t

def apply_entries : List (OutPoint × Option Coin) → FlatCoins → Option FlatCoins
  | [], t => some t
  | (op, some coin) :: entries, t => (t.insert op coin).bind (apply_entries entries)
  | (op, none) :: entries, t => (t.remove op).bind (apply_entries entries)

def apply_delta (t : FlatCoins) (map : Delta OutPoint Coin) : Option FlatCoins := apply_entries (toList map) t

def iter (t : FlatCoins) : List (OutPoint × Coin) :=
  (t.slots.filter Slot.is_live).map fun s => (outpoint_of_key s.key, coin_in s t.pool)

end FlatCoins

theorem outpoint_of_flat_key {op : OutPoint} (h : op.vout < 2 ^ 32) : outpoint_of_key (flat_key op) = op := by
  have htake : (flat_key op).take 32 = op.txid.to_bytes := by
    rw [flat_key, List.take_left' (Hash256.length_to_bytes _)]
  have hdrop : (flat_key op).drop 32 = le 4 op.vout := by
    rw [flat_key, List.drop_left' (Hash256.length_to_bytes _)]
  have hlt : op.txid.toNat < 256 ^ 32 := by simpa using op.txid.isLt
  rw [outpoint_of_key, htake, hdrop, Hash256.to_bytes_eq, List.reverse_reverse, value_le hlt, value_le (by omega)]
  simp

theorem flat_key_inj {a b : OutPoint} (ha : a.vout < 2 ^ 32) (hb : b.vout < 2 ^ 32) (h : flat_key a = flat_key b) :
    a = b := by
  rw [← outpoint_of_flat_key ha, h, outpoint_of_flat_key hb]

theorem flat_key_of_key (op : OutPoint) : flat_key (outpoint_of_key (flat_key op)) = flat_key op := by
  have hlt : op.vout % 2 ^ 32 < 2 ^ 32 := Nat.mod_lt _ (by norm_num)
  have hword : le 4 op.vout = le 4 (op.vout % 2 ^ 32) := by
    have hmod : value (le 4 op.vout) = value (le 4 (op.vout % 2 ^ 32)) := by
      rw [value_le_mod, value_le_mod]
      norm_num
    have hle : ∀ n, le 4 (value (le 4 n)) = le 4 n := by
      intro n
      have h := le_value (le 4 n)
      rwa [length_le] at h
    rw [← hle op.vout, hmod, hle]
  have hkey : flat_key op = flat_key ⟨op.txid, op.vout % 2 ^ 32⟩ := by rw [flat_key, hword, flat_key]
  rw [hkey, outpoint_of_flat_key hlt]

namespace FlatCoins

theorem inline_flags : ∀ (len : Fin 41) (coinbase : Bool),
    let flags := (FLAG_USED ||| (if coinbase then FLAG_COINBASE else 0)) |||
      (UInt32.ofNat len.val <<< SPK_LEN_SHIFT)
    flags &&& FLAG_USED ≠ 0 ∧ flags &&& FLAG_TOMB = 0 ∧ flags &&& FLAG_SPILL = 0 ∧
      ((flags &&& SPK_LEN_MASK) >>> SPK_LEN_SHIFT).toNat = len.val ∧ (flags &&& FLAG_COINBASE != 0) = coinbase := by
  decide

theorem spill_flags : ∀ coinbase : Bool,
    let flags := (FLAG_USED ||| (if coinbase then FLAG_COINBASE else 0)) ||| FLAG_SPILL
    flags &&& FLAG_USED ≠ 0 ∧ flags &&& FLAG_TOMB = 0 ∧ flags &&& FLAG_SPILL ≠ 0 ∧
      (flags &&& FLAG_COINBASE != 0) = coinbase := by
  decide

def Sound (pool : List UInt8) (s : Slot) : Prop :=
  match s.spk with
  | .inline _ => True
  | .spilled off len => off + len.toNat ≤ pool.length

variable {s old : Slot} {coin : Coin} {t : FlatCoins} {j : ℕ} {op : OutPoint} {m : Table OutPoint Coin}

variable {pool : List UInt8} {more : List UInt8}

theorem coin_in_append (h : Sound pool s) (more : List UInt8) :
    coin_in s (pool ++ more) = coin_in s pool := by
  unfold coin_in
  cases hs : s.spk with
  | inline bytes => rfl
  | spilled off len =>
    rw [Sound, hs] at h
    dsimp only
    rw [List.drop_append_of_le_length (by omega), List.take_append_of_le_length (by rw [List.length_drop]; omega)]

theorem Sound.append (h : Sound pool s) (more : List UInt8) :
    Sound (pool ++ more) s := by
  unfold Sound at h ⊢
  split
  · trivial
  · rename_i hs
    rw [hs] at h
    rw [List.length_append]
    exact h.trans (Nat.le_add_right _ _)

theorem slot_of_spec (key : FlatKey) (pool : List UInt8) (hlen : coin.out.script_pubkey.length < 2 ^ 32) :
    ∃ s more, slot_of key coin pool = (s, pool ++ more) ∧ s.key = key ∧ s.is_used = true ∧ s.is_tomb = false ∧
      coin_in s (pool ++ more) = coin ∧ Sound (pool ++ more) s := by
  unfold slot_of
  dsimp only
  split
  · rename_i hle
    unfold INLINE_SPK at hle
    obtain ⟨hu, ht, hs, hl, hc⟩ := inline_flags ⟨coin.out.script_pubkey.length, by omega⟩ coin.coinbase
    refine ⟨_, [], by rw [List.append_nil], rfl, ?_, ?_, ?_, ?_⟩
    · simp only [Slot.is_used, bne_iff_ne]
      exact hu
    · simp only [Slot.is_tomb, ht]
      rfl
    · unfold coin_in
      simp only
      rw [hs, hl, hc, if_neg (by simp), List.take_left]
    · trivial
  · obtain ⟨hu, ht, hs, hc⟩ := spill_flags coin.coinbase
    have hnat : (UInt32.ofNat coin.out.script_pubkey.length).toNat = coin.out.script_pubkey.length := by
      rw [UInt32.toNat_ofNat', Nat.mod_eq_of_lt hlen]
    refine ⟨_, coin.out.script_pubkey, rfl, rfl, ?_, ?_, ?_, ?_⟩
    · simp only [Slot.is_used, bne_iff_ne]
      exact hu
    · simp only [Slot.is_tomb, ht]
      rfl
    · unfold coin_in
      dsimp only
      rw [if_pos (by simpa using hs), hnat, hc, List.drop_left, List.take_length]
    · change pool.length + (UInt32.ofNat coin.out.script_pubkey.length).toNat ≤ _
      rw [hnat, List.length_append]

structure Wf (t : FlatCoins) : Prop where
  mask : ∀ i, i &&& t.mask = i % t.slots.length
  size : 16 ≤ t.slots.length
  chained : Chained Slot.is_used Slot.key flat_hash t.slots
  distinct : Distinct Slot.is_used Slot.key t.slots
  live : t.live = t.slots.countP Slot.is_live
  tomb : t.tomb = t.slots.countP Slot.is_dead
  sound : ∀ s ∈ t.slots, s.is_live = true → Sound t.pool s
  keyed : ∀ s ∈ t.slots, s.is_used = true → ∃ op, s.key = flat_key op

def Loaded (t : FlatCoins) : Prop := (t.live + t.tomb) * 10 ≤ t.slots.length * 7

theorem Slot.used_of_live (h : s.is_live = true) : s.is_used = true := by
  simp only [Slot.is_live, Bool.and_eq_true] at h
  exact h.1

theorem countP_used (slots : List Slot) :
    slots.countP Slot.is_used = slots.countP Slot.is_live + slots.countP Slot.is_dead := by
  induction slots with
  | nil => rfl
  | cons s slots ih =>
    simp only [List.countP_cons, Slot.is_live, Slot.is_dead] at ih ⊢
    by_cases hu : s.is_used = true <;> by_cases ht : s.is_tomb = true <;> simp [hu, ht] <;> omega

theorem Wf.room (h : Wf t) (hl : Loaded t) : ∃ s ∈ t.slots, s.is_used = false := by
  apply room_of_countP
  have := h.size
  rw [countP_used, ← h.live, ← h.tomb]
  unfold Loaded at hl
  omega

def Holds (t : FlatCoins) (key : FlatKey) (coin : Coin) : Prop :=
  ∃ (i : ℕ) (s : Slot), t.slots[i]? = some s ∧ s.is_live = true ∧ s.key = key ∧ coin_in s t.pool = coin

theorem Wf.holds_unique (h : Wf t) {key : FlatKey} {a b : Coin} (ha : t.Holds key a) (hb : t.Holds key b) :
    a = b := by
  obtain ⟨i, s, hi, hs, hk, rfl⟩ := ha
  obtain ⟨j, s', hj, hs', hk', rfl⟩ := hb
  have hij := h.distinct i j s s' hi hj (Slot.used_of_live hs) (Slot.used_of_live hs') (hk.trans hk'.symm)
  subst hij
  rw [hi] at hj
  rw [Option.some.inj hj]

theorem Wf.probe_live (h : Wf t) (hl : Loaded t) (op : OutPoint) : ∃ (i : ℕ) (s : Slot),
      t.probe_from (fun s => !s.is_used || (!s.is_tomb && s.key == flat_key op)) (flat_key op) = some i ∧
      t.slots[i]? = some s ∧
      ((s.is_live = true ∧ s.key = flat_key op) ∨ (s.is_used = false ∧ ∀ coin, ¬t.Holds (flat_key op) coin)) := by
  by_cases hex : ∃ (i : ℕ) (s : Slot), t.slots[i]? = some s ∧ s.is_live = true ∧ s.key = flat_key op
  · obtain ⟨i, s, hi, hs, hk⟩ := hex
    refine ⟨i, s, ?_, hi, Or.inl ⟨hs, hk⟩⟩
    rw [probe_from, ← hk]
    refine probe_used h.mask h.chained h.distinct hi (Slot.used_of_live hs) ?_ ?_
    · simp only [Slot.is_live, Bool.and_eq_true] at hs
      simp [hs.2]
    · intro t' hstop hu
      simp only [hu, Bool.not_true, Bool.false_or, Bool.and_eq_true, beq_iff_eq] at hstop
      exact hstop.2
  · obtain ⟨d, s, -, hprobe, hstep, hu, -⟩ := probe_unused (flat_hash (flat_key op))
      (fun s => !s.is_used || (!s.is_tomb && s.key == flat_key op)) h.mask (fun t' ht' => by simp [ht'])
      (fun t' ht' hu' => by
        obtain ⟨i, hi, rfl⟩ := List.mem_iff_getElem.mp ht'
        simp only [hu', Bool.not_true, Bool.false_or]
        rw [← Bool.not_eq_true, Bool.and_eq_true, beq_iff_eq, Bool.not_eq_true']
        rintro ⟨htomb, hkey⟩
        exact hex ⟨i, _, List.getElem?_eq_getElem hi, by simp [Slot.is_live, hu', htomb], hkey⟩)
      (h.room hl)
    refine ⟨_, s, hprobe, hstep, Or.inr ⟨hu, ?_⟩⟩
    rintro coin ⟨i, s', hi, hs', hk', -⟩
    exact hex ⟨i, s', hi, hs', hk'⟩

theorem Wf.get_spec (h : Wf t) (hl : Loaded t) (op : OutPoint) :
    ∃ r, t.get op = some r ∧ t.have_ op = some r.isSome ∧ ∀ coin, r = some coin ↔ t.Holds (flat_key op) coin := by
  obtain ⟨i, s, hprobe, hi, hcase⟩ := h.probe_live hl op
  unfold get have_
  dsimp only
  rw [hprobe]
  dsimp only
  rw [hi]
  dsimp only
  rcases hcase with ⟨hs, hk⟩ | ⟨hu, hnone⟩
  · have hu := Slot.used_of_live hs
    refine ⟨some (coin_in s t.pool), by rw [if_pos hu], by rw [hu]; rfl, fun coin => ?_⟩
    have hown : t.Holds (flat_key op) (coin_in s t.pool) := ⟨i, s, hi, hs, hk, rfl⟩
    constructor
    · exact fun he => Option.some.inj he ▸ hown
    · exact fun hc => congrArg some (h.holds_unique hown hc)
  · exact ⟨none, by rw [if_neg (by simp [hu])], by rw [hu]; rfl,
      fun coin => ⟨fun he => (by cases he), fun hc => absurd hc (hnone coin)⟩⟩

def Takes (t : FlatCoins) (j : ℕ) (old : Slot) (key : FlatKey) : Prop :=
  (old.is_used = true ∧ old.key = key) ∨
    (old.is_used = false ∧ (∃ d, d < t.slots.length ∧ (flat_hash key + d) % t.slots.length = j ∧
      ∀ e < d, ∀ s, step t.slots (flat_hash key) e = some s → s.is_used = true) ∧
      ∀ s ∈ t.slots, s.is_used = true → s.key ≠ key)

def store (t : FlatCoins) (j : ℕ) (s : Slot) (more : List UInt8) : FlatCoins :=
  ⟨t.slots.set j s, t.mask, (t.slots.set j s).countP Slot.is_live, (t.slots.set j s).countP Slot.is_dead,
    t.pool ++ more⟩

theorem Wf.store (h : Wf t) (hj : t.slots[j]? = some old) (hu : s.is_used = true) (hk : ∃ op, s.key = flat_key op)
    (ht : t.Takes j old s.key) (hs : s.is_live = true → Sound (t.pool ++ more) s) :
    Wf (t.store j s more) where
  mask i := by
    rw [FlatCoins.store, List.length_set]
    exact h.mask i
  size := by
    rw [FlatCoins.store, List.length_set]
    exact h.size
  chained := by
    apply chained_set h.chained hu
    rcases ht with ⟨hold, hkey⟩ | ⟨-, hd, -⟩
    · exact hkey ▸ h.chained j old hj hold
    · exact hd
  distinct := by
    apply distinct_set h.distinct
    intro i s' hi hs' hkey
    rcases ht with ⟨hold, hkey'⟩ | ⟨-, -, hnone⟩
    · exact h.distinct i j s' old hi hj hs' hold (hkey.trans hkey'.symm)
    · exact absurd hkey (hnone s' (List.mem_of_getElem? hi) hs')
  live := rfl
  tomb := rfl
  sound s' hs' hlive := by
    rcases List.mem_or_eq_of_mem_set hs' with hs' | rfl
    · exact (h.sound s' hs' hlive).append more
    · exact hs hlive
  keyed s' hs' hu' := by
    rcases List.mem_or_eq_of_mem_set hs' with hs' | rfl
    · exact h.keyed s' hs' hu'
    · exact hk

theorem Wf.holds_store (h : Wf t) (hj : t.slots[j]? = some old) (ht : t.Takes j old s.key) (key : FlatKey)
    (coin : Coin) :
    (t.store j s more).Holds key coin ↔
      if key = s.key then s.is_live = true ∧ coin_in s (t.pool ++ more) = coin else t.Holds key coin := by
  have hlen : j < t.slots.length := (List.getElem?_eq_some_iff.mp hj).1
  have other : ∀ (i : ℕ) s', t.slots[i]? = some s' → s'.is_live = true → s'.key ≠ s.key → j ≠ i := by
    intro i s' hi hs' hne hij
    subst hij
    obtain rfl := Option.some.inj (hj.symm.trans hi)
    rcases ht with ⟨-, hkey⟩ | ⟨hold, -⟩
    · exact hne hkey
    · rw [Slot.used_of_live hs'] at hold
      cases hold
  split
  · rename_i hkey
    subst hkey
    constructor
    · rintro ⟨i, s', hi, hs', hk', rfl⟩
      rw [FlatCoins.store, List.getElem?_set] at hi
      split at hi
      · obtain rfl := Option.some.inj hi
        exact ⟨hs', rfl⟩
      · rename_i hne
        rcases ht with ⟨hold, hkey⟩ | ⟨-, -, hnone⟩
        · exact absurd (h.distinct j i old s' hj hi hold (Slot.used_of_live hs') (hkey.trans hk'.symm)) hne
        · exact absurd hk' (hnone s' (List.mem_of_getElem? hi) (Slot.used_of_live hs'))
    · rintro ⟨hs', rfl⟩
      exact ⟨j, s, by rw [FlatCoins.store, List.getElem?_set_self hlen], hs', rfl, rfl⟩
  · rename_i hkey
    constructor
    · rintro ⟨i, s', hi, hs', rfl, rfl⟩
      rw [FlatCoins.store, List.getElem?_set] at hi
      split at hi
      · obtain rfl := Option.some.inj hi
        exact absurd rfl hkey
      · refine ⟨i, s', hi, hs', rfl, (coin_in_append (h.sound s' (List.mem_of_getElem? hi) hs') more).symm⟩
    · rintro ⟨i, s', hi, hs', rfl, rfl⟩
      refine ⟨i, s', ?_, hs', rfl, coin_in_append (h.sound s' (List.mem_of_getElem? hi) hs') more⟩
      rw [FlatCoins.store, List.getElem?_set_ne (other i s' hi hs' hkey)]
      exact hi

theorem countP_store (hj : t.slots[j]? = some old) (p : Slot → Bool) :
    (t.slots.set j s).countP p + (if p old then 1 else 0) = t.slots.countP p + (if p s then 1 else 0) := by
  obtain ⟨hlen, rfl⟩ := List.getElem?_eq_some_iff.mp hj
  have hpos : p t.slots[j] = true → 0 < t.slots.countP p := fun hp =>
    List.countP_pos_iff.mpr ⟨_, List.getElem_mem hlen, hp⟩
  rw [List.countP_set hlen]
  by_cases hp : p t.slots[j] = true
  · have := hpos hp
    simp only [hp, if_true]
    omega
  · simp only [hp]
    simp

def Fits (coin : Coin) : Prop := coin.out.script_pubkey.length < 2 ^ 32

theorem Wf.write_spec (h : Wf t) (live tomb : ℕ) (hc : Fits coin) (hj : t.slots[j]? = some old)
    (ht : t.Takes j old (flat_key op)) (hlive : live + (if old.is_live then 1 else 0) = t.live + 1)
    (htomb : tomb + (if old.is_dead then 1 else 0) = t.tomb) :
    ∃ t', ({ t with live, tomb } : FlatCoins).write_slot j (flat_key op) coin = t' ∧ Wf t' ∧
      t'.slots.length = t.slots.length ∧ t'.live = live ∧ t'.tomb = tomb ∧ (∃ more, t'.pool = t.pool ++ more) ∧
      ∀ key c, t'.Holds key c ↔ if key = flat_key op then c = coin else t.Holds key c := by
  obtain ⟨s, more, hslot, hkey, hu, hs, hcoin, hsound⟩ := slot_of_spec (flat_key op) t.pool hc
  have hl : s.is_live = true := by simp [Slot.is_live, hu, hs]
  have hd : s.is_dead = false := by simp [Slot.is_dead, hs]
  rw [← hkey] at ht
  have hl' := countP_store (s := s) hj Slot.is_live
  have hd' := countP_store (s := s) hj Slot.is_dead
  rw [if_pos hl, ← h.live] at hl'
  simp only [hd, Bool.false_eq_true, if_false, ← h.tomb] at hd'
  have heq : ({ t with live, tomb } : FlatCoins).write_slot j (flat_key op) coin = t.store j s more := by
    have hlive' : live = (t.slots.set j s).countP Slot.is_live := by omega
    have htomb' : tomb = (t.slots.set j s).countP Slot.is_dead := by omega
    rw [write_slot, hslot, FlatCoins.store, hlive', htomb']
  refine ⟨_, heq, h.store hj hu ⟨op, hkey⟩ ht fun _ => hsound, List.length_set, ?_, ?_, ⟨more, rfl⟩, ?_⟩
  · change (t.slots.set j s).countP Slot.is_live = _
    omega
  · change (t.slots.set j s).countP Slot.is_dead = _
    omega
  · intro key c
    rw [h.holds_store hj ht, hkey]
    split
    · rw [hcoin]
      exact ⟨fun ⟨_, he⟩ => he.symm, fun he => ⟨hl, he.symm⟩⟩
    · rfl

theorem Wf.probe_takes (h : Wf t) (hl : Loaded t) (op : OutPoint) :
    ∃ (j : ℕ) (old : Slot), t.probe_from (fun s => !s.is_used || s.key == flat_key op) (flat_key op) = some j ∧
      t.slots[j]? = some old ∧ t.Takes j old (flat_key op) := by
  by_cases hex : ∃ (j : ℕ) (old : Slot), t.slots[j]? = some old ∧ old.is_used = true ∧ old.key = flat_key op
  · obtain ⟨j, old, hj, hold, hk⟩ := hex
    refine ⟨j, old, ?_, hj, Or.inl ⟨hold, hk⟩⟩
    rw [probe_from, ← hk]
    refine probe_used h.mask h.chained h.distinct hj hold (by simp) fun t' hstop hu' => ?_
    simpa [hu'] using hstop
  · have hnone : ∀ s ∈ t.slots, s.is_used = true → s.key ≠ flat_key op := by
      intro s hs hu hk
      obtain ⟨i, hi, rfl⟩ := List.mem_iff_getElem.mp hs
      exact hex ⟨i, _, List.getElem?_eq_getElem hi, hu, hk⟩
    obtain ⟨d, old, hd, hprobe, hstep, hold, hbefore⟩ := probe_unused (flat_hash (flat_key op))
      (fun s => !s.is_used || s.key == flat_key op) h.mask (fun s hs => by simp [hs])
      (fun s hs hu => by simpa [hu] using hnone s hs hu) (h.room hl)
    exact ⟨_, old, hprobe, hstep, Or.inr ⟨hold, ⟨d, hd, rfl, hbefore⟩, hnone⟩⟩

theorem Wf.place_spec (h : Wf t) (hl : Loaded t) (op : OutPoint) (hc : Fits coin) :
    ∃ t' fresh, t.place op coin = some (t', fresh) ∧ Wf t' ∧ t'.slots.length = t.slots.length ∧
      t'.live + t'.tomb = t.live + t.tomb + fresh.toNat ∧ t'.live ≤ t.live + 1 ∧ t'.tomb ≤ t.tomb ∧
      (∃ more, t'.pool = t.pool ++ more) ∧ ∀ key c, t'.Holds key c ↔
        if key = flat_key op then c = coin else t.Holds key c := by
  obtain ⟨j, old, hprobe, hj, htakes⟩ := h.probe_takes hl op
  have hpos : old.is_live = true → 0 < t.live := fun ho =>
    h.live ▸ List.countP_pos_iff.mpr ⟨old, List.mem_of_getElem? hj, ho⟩
  have hpos' : old.is_dead = true → 0 < t.tomb := fun ho =>
    h.tomb ▸ List.countP_pos_iff.mpr ⟨old, List.mem_of_getElem? hj, ho⟩
  unfold place
  dsimp only
  rw [hprobe]
  dsimp only
  rw [hj]
  dsimp only
  by_cases hold : old.is_used = true
  · by_cases htomb : old.is_tomb = true
    · have hdead : old.is_dead = true := by simp [Slot.is_dead, hold, htomb]
      have hlive : old.is_live = false := by simp [Slot.is_live, htomb]
      have htp := hpos' hdead
      obtain ⟨t', hw, hwf, hlen, hl', ht', hp, hh⟩ := h.write_spec (t.live + 1) (t.tomb - 1) hc hj htakes
        (by simp [hlive]) (by simp [hdead]; omega)
      exact ⟨t', false, by rw [if_pos hold, if_pos htomb, hw], hwf, hlen, by rw [hl', ht', Bool.toNat_false]; omega,
        by omega, by omega, hp, hh⟩
    · have hdead : old.is_dead = false := by simp [Slot.is_dead, htomb]
      have hlive : old.is_live = true := by simp [Slot.is_live, hold, htomb]
      obtain ⟨t', hw, hwf, hlen, hl', ht', hp, hh⟩ := h.write_spec t.live t.tomb hc hj htakes
        (by simp [hlive]) (by simp [hdead])
      exact ⟨t', false, by rw [if_pos hold, if_neg htomb, ← hw], hwf, hlen, by rw [hl', ht', Bool.toNat_false]; omega,
        by omega, by omega, hp, hh⟩
  · have hdead : old.is_dead = false := by simp [Slot.is_dead, hold]
    have hlive : old.is_live = false := by simp [Slot.is_live, hold]
    obtain ⟨t', hw, hwf, hlen, hl', ht', hp, hh⟩ := h.write_spec (t.live + 1) t.tomb hc hj htakes
      (by simp [hlive]) (by simp [hdead])
    exact ⟨t', true, by rw [if_neg hold, ← hw], hwf, hlen, by rw [hl', ht', Bool.toNat_true]; omega,
      by omega, by omega, hp, hh⟩

theorem tomb_flags (flags : UInt32) (h : flags &&& FLAG_USED ≠ 0) :
    (flags ||| FLAG_TOMB) &&& FLAG_USED ≠ 0 ∧ (flags ||| FLAG_TOMB) &&& FLAG_TOMB ≠ 0 := by
  have hdistrib : ∀ a b c : UInt32, (a ||| b) &&& c = (a &&& c) ||| (b &&& c) := by
    intro a b c
    apply UInt32.toBitVec_inj.mp
    simp only [UInt32.toBitVec_and, UInt32.toBitVec_or, BitVec.and_or_distrib_right]
  have hused : FLAG_TOMB &&& FLAG_USED = 0 := by decide
  constructor
  · rw [hdistrib, hused, UInt32.or_zero]
    exact h
  · rw [hdistrib, UInt32.and_self]
    intro hz
    have hbit : (flags &&& FLAG_TOMB ||| FLAG_TOMB).toBitVec.getLsbD 30 = true := by
      rw [UInt32.toBitVec_or, BitVec.getLsbD_or]
      simp [show FLAG_TOMB.toBitVec.getLsbD 30 = true by decide]
    rw [hz] at hbit
    revert hbit
    decide

theorem Wf.remove_spec (h : Wf t) (hl : Loaded t) (op : OutPoint) : ∃ t', t.remove op = some t' ∧ Wf t' ∧ Loaded t' ∧
      ∀ key c, t'.Holds key c ↔ key ≠ flat_key op ∧ t.Holds key c := by
  obtain ⟨j, old, hprobe, hj, hcase⟩ := h.probe_live hl op
  unfold remove
  dsimp only
  rw [hprobe]
  dsimp only
  rw [hj]
  dsimp only
  rcases hcase with ⟨hlive, hkey⟩ | ⟨hu, hnone⟩
  · have hu := Slot.used_of_live hlive
    have hflags : old.flags &&& FLAG_USED ≠ 0 := by simpa [Slot.is_used] using hu
    obtain ⟨hused, htomb⟩ := tomb_flags old.flags hflags
    set s : Slot := { old with flags := old.flags ||| FLAG_TOMB } with hs
    have hsu : s.is_used = true := by simpa [Slot.is_used, hs] using hused
    have hst : s.is_tomb = true := by simpa [Slot.is_tomb, hs] using htomb
    have hsl : s.is_live = false := by simp [Slot.is_live, hst]
    have hsd : s.is_dead = true := by simp [Slot.is_dead, hsu, hst]
    have hod : old.is_dead = false := by
      simp only [Slot.is_live, Bool.and_eq_true, Bool.not_eq_true'] at hlive
      simp [Slot.is_dead, hlive.2]
    have htakes : t.Takes j old s.key := Or.inl ⟨hu, rfl⟩
    have hl' := countP_store (s := s) hj Slot.is_live
    have hd' := countP_store (s := s) hj Slot.is_dead
    simp only [hlive, hsl, Bool.false_eq_true, if_false, if_true, ← h.live] at hl'
    simp only [hod, hsd, Bool.false_eq_true, if_false, if_true, ← h.tomb] at hd'
    have heq : (⟨t.slots.set j s, t.mask, t.live - 1, t.tomb + 1, t.pool⟩ : FlatCoins) = t.store j s [] := by
      have h1 : t.live - 1 = (t.slots.set j s).countP Slot.is_live := by omega
      have h2 : t.tomb + 1 = (t.slots.set j s).countP Slot.is_dead := by omega
      rw [FlatCoins.store, List.append_nil, h1, h2]
    refine ⟨t.store j s [], by rw [if_pos hu, heq], h.store hj hsu (h.keyed old (List.mem_of_getElem? hj) hu) htakes
      (fun hc => by rw [hsl] at hc; cases hc), ?_, ?_⟩
    · rw [← heq]
      unfold Loaded at hl ⊢
      rw [List.length_set]
      dsimp only
      omega
    · intro key c
      rw [h.holds_store hj htakes, hsl]
      have hsk : s.key = flat_key op := hkey
      rw [hsk]
      split
      · rename_i hk
        simp [hk]
      · rename_i hk
        simp [hk]
  · refine ⟨t, by rw [if_neg (by simp [hu])], h, hl, fun key c => ⟨fun hc => ⟨fun hk => ?_, hc⟩, fun hc => hc.2⟩⟩
    exact hnone c (hk ▸ hc)

theorem next_power_of_two_le (n : ℕ) : n ≤ next_power_of_two n := Nat.le_pow_clog (by norm_num) n

theorem empty_wf {n e : ℕ} (hn : max n 16 = 2 ^ e) (pool : List UInt8) : Wf (empty (max n 16) pool) := by
  have hget : ∀ (i : ℕ) s, (List.replicate (max n 16) Slot.default)[i]? = some s → s.is_used = false := by
    intro i s hs
    rw [(List.mem_replicate.mp (List.mem_of_getElem? hs)).2]
    decide
  have hmem : ∀ s ∈ List.replicate (max n 16) Slot.default, s.is_used = false := by
    intro s hs
    obtain ⟨i, hi, rfl⟩ := List.mem_iff_getElem.mp hs
    exact hget i _ (List.getElem?_eq_getElem hi)
  refine ⟨fun i => ?_, ?_, ?_, ?_, ?_, ?_, ?_, ?_⟩
  · change i &&& (max n 16 - 1) = i % (List.replicate (max n 16) Slot.default).length
    rw [List.length_replicate, hn, Nat.and_two_pow_sub_one_eq_mod]
  · change 16 ≤ (List.replicate (max n 16) Slot.default).length
    rw [List.length_replicate]
    omega
  · intro j s hj hu
    rw [hget j s hj] at hu
    cases hu
  · intro i j s s' hi _ hu
    rw [hget i s hi] at hu
    cases hu
  · refine (List.countP_eq_zero.mpr fun s hs => ?_).symm
    simp [Slot.is_live, hmem s hs]
  · refine (List.countP_eq_zero.mpr fun s hs => ?_).symm
    simp [Slot.is_dead, hmem s hs]
  · intro s hs hl
    rw [Slot.is_live, hmem s hs] at hl
    cases hl
  · intro s hs hu
    rw [hmem s hs] at hu
    cases hu

theorem fits_coin_in (s : Slot) (pool : List UInt8) : Fits (coin_in s pool) := by
  unfold Fits coin_in
  split
  · rename_i off len _
    split
    · rw [List.length_take]
      exact (min_le_left _ _).trans_lt len.toNat_lt
    · simp
  · split
    · simp
    · rw [List.length_take]
      exact (min_le_left _ _).trans_lt (UInt32.toNat_lt _)

theorem maybe_rebuild_rests (insert : FlatCoins → OutPoint → Coin → Option FlatCoins) (hl : Loaded t)
    (ht : t.tomb = 0) : t.maybe_rebuild insert = some t := by
  unfold Loaded at hl
  have hgrow : decide (t.slots.length * 7 < (t.live + t.tomb) * 10) = false := by
    rw [decide_eq_false_iff_not]
    omega
  have hcompact : decide (t.slots.length < t.tomb * 4) = false := by
    rw [decide_eq_false_iff_not]
    omega
  unfold maybe_rebuild
  simp only [hgrow, hcompact]
  rfl

theorem Wf.insert_all_spec (pool : List UInt8) (source : List Slot) {f : FlatCoins} (hf : Wf f) (htomb : f.tomb = 0)
    (hroom : (f.live + source.countP Slot.is_live) * 10 ≤ f.slots.length * 7) (hpool : ∃ more, f.pool = pool ++ more)
    (hsource : ∀ s ∈ source, s.is_live = true → Sound pool s ∧ ∃ op, s.key = flat_key op)
    (hdistinct : source.Pairwise fun a b => a.is_live = true → b.is_live = true → a.key ≠ b.key) :
    ∃ f', insert_all (insert_deep 0) source f = some f' ∧ Wf f' ∧ f'.tomb = 0 ∧ Loaded f' ∧
      ∀ key c, f'.Holds key c ↔ (∃ s ∈ source, s.is_live = true ∧ s.key = key ∧ coin_in s pool = c) ∨
        ((∀ s ∈ source, s.is_live = true → s.key ≠ key) ∧ f.Holds key c) := by
  induction source generalizing f with
  | nil =>
    refine ⟨f, rfl, hf, htomb, ?_, by simp⟩
    unfold Loaded
    simp only [List.countP_nil] at hroom
    omega
  | cons s source ih =>
    obtain ⟨hs, hsource⟩ := List.forall_mem_cons.mp hsource
    obtain ⟨hfirst, hdistinct⟩ := List.pairwise_cons.mp hdistinct
    rw [insert_all]
    change ∃ f', (if s.is_live = true then _ else _) = some f' ∧ _
    by_cases hlive : s.is_live = true
    · rw [if_pos hlive]
      rw [List.countP_cons_of_pos hlive] at hroom
      obtain ⟨hsound, op, hkey⟩ := hs hlive
      obtain ⟨more, hmore⟩ := hpool
      have hcoin : coin_in s f.pool = coin_in s pool := by rw [hmore, coin_in_append hsound]
      have hop : flat_key (outpoint_of_key s.key) = s.key := by rw [hkey, flat_key_of_key]
      have hloaded : Loaded f := by
        unfold Loaded
        omega
      obtain ⟨f₁, fresh, hplace, hwf, hlen, hsum, -, htomb', ⟨more', hmore'⟩, hholds⟩ :=
        hf.place_spec hloaded (outpoint_of_key s.key) (fits_coin_in s f.pool)
      have htomb₁ : f₁.tomb = 0 := by omega
      have hfresh := Bool.toNat_le fresh
      have hloaded₁ : Loaded f₁ := by
        unfold Loaded
        rw [hlen]
        omega
      have hinsert : insert_deep 0 f (outpoint_of_key s.key) (coin_in s f.pool) = some f₁ := by
        rw [insert_deep, hplace]
        cases fresh with
        | false => rfl
        | true => exact maybe_rebuild_rests _ hloaded₁ htomb₁
      rw [hinsert]
      obtain ⟨f', hall, hwf', htomb'', hloaded', hholds'⟩ := ih hwf htomb₁ (by rw [hlen]; omega)
        ⟨more ++ more', by rw [hmore', hmore, List.append_assoc]⟩ hsource hdistinct
      refine ⟨f', hall, hwf', htomb'', hloaded', fun key c => ?_⟩
      rw [hholds', hholds, hop, hcoin]
      constructor
      · rintro (⟨s', hs', hl', hk', hc'⟩ | ⟨hnone, hc'⟩)
        · exact Or.inl ⟨s', List.mem_cons_of_mem _ hs', hl', hk', hc'⟩
        split at hc'
        · rename_i hk
          exact Or.inl ⟨s, List.mem_cons_self, hlive, hk.symm, hc'.symm⟩
        · rename_i hk
          exact Or.inr ⟨List.forall_mem_cons.mpr ⟨fun _ he => hk he.symm, hnone⟩, hc'⟩
      · rintro (⟨s', hs', hl', hk', hc'⟩ | ⟨hnone, hc'⟩)
        · rcases List.mem_cons.mp hs' with rfl | hs'
          · exact Or.inr ⟨fun s' hs' hl' he => hfirst s' hs' hlive hl' (hk'.trans he.symm),
              by rw [if_pos hk'.symm]; exact hc'.symm⟩
          · exact Or.inl ⟨s', hs', hl', hk', hc'⟩
        · obtain ⟨hne, hnone⟩ := List.forall_mem_cons.mp hnone
          exact Or.inr ⟨hnone, by rw [if_neg fun he => hne hlive he.symm]; exact hc'⟩
    · rw [if_neg hlive]
      rw [List.countP_cons_of_neg hlive] at hroom
      obtain ⟨f', hall, hwf', htomb', hloaded', hholds'⟩ := ih hf htomb hroom hpool hsource hdistinct
      refine ⟨f', hall, hwf', htomb', hloaded', fun key c => ?_⟩
      rw [hholds']
      simp [hlive]

theorem Wf.maybe_rebuild_spec (h : Wf t) :
    ∃ t', t.maybe_rebuild (insert_deep 0) = some t' ∧ Wf t' ∧ Loaded t' ∧ ∀ key c, t'.Holds key c ↔
      t.Holds key c := by
  unfold maybe_rebuild
  dsimp only
  split
  · rename_i hrest
    simp only [Bool.and_eq_true, Bool.not_eq_true', decide_eq_false_iff_not] at hrest
    refine ⟨t, rfl, h, ?_, fun _ _ => Iff.rfl⟩
    unfold Loaded
    omega
  · rename_i hneed
    set grow : Bool := decide (t.slots.length * 7 < (t.live + t.tomb) * 10) with hgrow
    set n := next_power_of_two (if grow then at_load (t.live * 2) else t.slots.length) with hn
    have hpow : ∃ e, max n 16 = 2 ^ e := by
      rw [hn, next_power_of_two, show (16 : ℕ) = 2 ^ 4 by norm_num]
      rcases le_total (Nat.clog 2 (if grow then at_load (t.live * 2) else t.slots.length)) 4 with hle | hle
      · exact ⟨4, max_eq_right (Nat.pow_le_pow_right (by norm_num) hle)⟩
      · exact ⟨_, max_eq_left (Nat.pow_le_pow_right (by norm_num) hle)⟩
    have hroom : t.live * 10 ≤ max n 16 * 7 := by
      have hle := next_power_of_two_le (if grow then at_load (t.live * 2) else t.slots.length)
      rw [← hn] at hle
      cases hg : grow with
      | true =>
        rw [hg, if_pos rfl, at_load] at hle
        omega
      | false =>
        rw [hg] at hle
        rw [hgrow, decide_eq_false_iff_not] at hg
        simp only [Bool.false_eq_true, if_false] at hle
        omega
    obtain ⟨e, he⟩ := hpow
    have hempty := empty_wf he t.pool
    have hnone : ∀ key c, ¬(empty (max n 16) t.pool).Holds key c := by
      rintro key c ⟨i, s, hi, hs, -, -⟩
      have hs' := (List.mem_replicate.mp (List.mem_of_getElem? hi)).2
      rw [hs'] at hs
      exact absurd hs (by decide)
    obtain ⟨t', hall, hwf, -, hloaded, hholds⟩ := hempty.insert_all_spec t.pool t.slots rfl
      (by
        rw [← h.live]
        change (0 + t.live) * 10 ≤ (List.replicate (max n 16) Slot.default).length * 7
        rw [List.length_replicate]
        omega)
      ⟨[], (List.append_nil _).symm⟩
      (fun s hs hl => ⟨h.sound s hs hl, h.keyed s hs (Slot.used_of_live hl)⟩)
      (by
        rw [List.pairwise_iff_getElem]
        intro i j hi hj hij hli hlj hk
        have := h.distinct i j _ _ (List.getElem?_eq_getElem hi) (List.getElem?_eq_getElem hj) (Slot.used_of_live hli)
          (Slot.used_of_live hlj) hk
        omega)
    refine ⟨t', hall, hwf, hloaded, fun key c => ?_⟩
    rw [hholds]
    constructor
    · rintro (⟨s, hs, hl, hk, hc⟩ | ⟨-, hc⟩)
      · obtain ⟨i, hi, rfl⟩ := List.mem_iff_getElem.mp hs
        exact ⟨i, _, List.getElem?_eq_getElem hi, hl, hk, hc⟩
      · exact absurd hc (hnone key c)
    · rintro ⟨i, s, hi, hl, hk, hc⟩
      exact Or.inl ⟨s, List.mem_of_getElem? hi, hl, hk, hc⟩

theorem Wf.insert_spec (h : Wf t) (hl : Loaded t) (op : OutPoint) (hc : Fits coin) :
    ∃ t', t.insert op coin = some t' ∧ Wf t' ∧ Loaded t' ∧
      ∀ key c, t'.Holds key c ↔ if key = flat_key op then c = coin else t.Holds key c := by
  obtain ⟨t₁, fresh, hplace, hwf, hlen, hsum, -, -, -, hholds⟩ := h.place_spec hl op hc
  rw [insert, insert_deep, hplace]
  cases fresh with
  | false =>
    refine ⟨t₁, rfl, hwf, ?_, hholds⟩
    unfold Loaded at hl ⊢
    rw [hlen, hsum, Bool.toNat_false]
    omega
  | true =>
    obtain ⟨t', hrebuild, hwf', hloaded, hholds'⟩ := hwf.maybe_rebuild_spec
    exact ⟨t', hrebuild, hwf', hloaded, fun key c => (hholds' key c).trans (hholds key c)⟩

def Word (op : OutPoint) : Prop := op.vout < 2 ^ 32

structure Refines (t : FlatCoins) (m : Table OutPoint Coin) : Prop where
  wf : Wf t
  loaded : Loaded t
  word : ∀ op c, m.lookup op = some c → Word op
  holds : ∀ key c, t.Holds key c ↔ ∃ op, flat_key op = key ∧ m.lookup op = some c

theorem Refines.holds_iff (h : Refines t m) (hop : Word op) (c : Coin) : t.Holds (flat_key op) c ↔
    m.lookup op = some c := by
  rw [h.holds]
  constructor
  · rintro ⟨op', hk, hc⟩
    rwa [flat_key_inj (h.word op' c hc) hop hk] at hc
  · exact fun hc => ⟨op, rfl, hc⟩

theorem Refines.insert (h : Refines t m) (hop : Word op) (hc : Fits coin) :
    ∃ t', t.insert op coin = some t' ∧ Refines t' (m.insert op coin) := by
  obtain ⟨t', hinsert, hwf, hloaded, hholds⟩ := h.wf.insert_spec h.loaded op hc
  refine ⟨t', hinsert, hwf, hloaded, ?_, ?_⟩
  · intro op' c hl
    rw [lookup_insert_eq] at hl
    split at hl
    · rename_i he
      exact he ▸ hop
    · exact h.word op' c hl
  · intro key c
    rw [hholds]
    constructor
    · intro hc'
      split at hc'
      · rename_i hk
        exact ⟨op, hk.symm, by rw [lookup_insert_eq, if_pos rfl, hc']⟩
      · rename_i hk
        obtain ⟨op', hk', hl⟩ := (h.holds key c).mp hc'
        exact ⟨op', hk', by rw [lookup_insert_eq, if_neg (fun he => hk (by rw [← hk', he])), hl]⟩
    · rintro ⟨op', rfl, hl⟩
      rw [lookup_insert_eq] at hl
      split at hl
      · rename_i he
        rw [he, if_pos rfl]
        exact (Option.some.inj hl).symm
      · rename_i he
        rw [if_neg fun hk => he (flat_key_inj (h.word op' c hl) hop hk)]
        exact (h.holds _ c).mpr ⟨op', rfl, hl⟩

theorem Refines.remove (h : Refines t m) (hop : Word op) : ∃ t', t.remove op = some t' ∧ Refines t' (m.erase op) := by
  obtain ⟨t', hremove, hwf, hloaded, hholds⟩ := h.wf.remove_spec h.loaded op
  have herase : ∀ op' c, (m.erase op).lookup op' = some c ↔ op' ≠ op ∧ m.lookup op' = some c := by
    intro op' c
    rw [lookup_erase_eq]
    split
    · rename_i he
      simp [he]
    · rename_i he
      simp [he]
  refine ⟨t', hremove, hwf, hloaded, fun op' c hl => h.word op' c ((herase op' c).mp hl).2, fun key c => ?_⟩
  rw [hholds, h.holds]
  constructor
  · rintro ⟨hk, op', rfl, hl⟩
    exact ⟨op', rfl, (herase op' c).mpr ⟨fun he => hk (by rw [he]), hl⟩⟩
  · rintro ⟨op', rfl, hl⟩
    obtain ⟨hne, hl⟩ := (herase op' c).mp hl
    exact ⟨fun hk => hne (flat_key_inj (h.word op' c hl) hop hk), op', rfl, hl⟩

theorem Refines.apply_entries (h : Refines t m) (entries : List (OutPoint × Option Coin))
    (hentries : ∀ e ∈ entries, Word e.1 ∧ ∀ c, e.2 = some c → Fits c) :
    ∃ t', apply_entries entries t = some t' ∧ Refines t' (applyEntries m (entries.map fun e => ⟨e.1, e.2⟩)) := by
  induction entries generalizing t m with
  | nil => exact ⟨t, rfl, h⟩
  | cons e entries ih =>
    obtain ⟨⟨hop, hc⟩, hrest⟩ := List.forall_mem_cons.mp hentries
    obtain ⟨op, _ | coin⟩ := e
    · obtain ⟨t₁, hremove, h₁⟩ := h.remove hop
      obtain ⟨t', happly, h'⟩ := ih h₁ hrest
      exact ⟨t', by rw [FlatCoins.apply_entries, hremove]; exact happly, h'⟩
    · obtain ⟨t₁, hinsert, h₁⟩ := h.insert hop (hc coin rfl)
      obtain ⟨t', happly, h'⟩ := ih h₁ hrest
      exact ⟨t', by rw [FlatCoins.apply_entries, hinsert]; exact happly, h'⟩

structure Agrees (t : FlatCoins) (m : Table OutPoint Coin) : Prop where
  get : ∀ op, Word op → t.get op = some (m.lookup op)
  have_ : ∀ op, Word op → t.have_ op = some (m.lookup op).isSome
  iter : t.iter.Perm (toList m)
  len : t.len = m.keys.length

theorem Refines.mem_iter (h : Refines t m) (op : OutPoint) (c : Coin) : (op, c) ∈ t.iter ↔ m.lookup op = some c := by
  simp only [FlatCoins.iter, List.mem_map, List.mem_filter, Prod.mk.injEq]
  constructor
  · rintro ⟨s, ⟨hs, hl⟩, rfl, rfl⟩
    obtain ⟨i, hi, rfl⟩ := List.mem_iff_getElem.mp hs
    obtain ⟨op, hk, hc⟩ := (h.holds _ _).mp ⟨i, _, List.getElem?_eq_getElem hi, hl, rfl, rfl⟩
    rwa [← hk, outpoint_of_flat_key (h.word op _ hc)]
  · intro hc
    obtain ⟨i, s, hi, hl, hk, hcoin⟩ := (h.holds (flat_key op) c).mpr ⟨op, rfl, hc⟩
    exact ⟨s, ⟨List.mem_of_getElem? hi, hl⟩, by rw [hk, outpoint_of_flat_key (h.word op c hc)], hcoin⟩

theorem Refines.iter_nodup (h : Refines t m) : t.iter.Nodup := by
  rw [FlatCoins.iter, List.Nodup, List.pairwise_map, List.pairwise_filter, List.pairwise_iff_getElem]
  intro i j hi hj hij hli hlj he
  have hu := Slot.used_of_live hli
  have hu' := Slot.used_of_live hlj
  obtain ⟨op, hk⟩ := h.wf.keyed _ (List.getElem_mem hi) hu
  obtain ⟨op', hk'⟩ := h.wf.keyed _ (List.getElem_mem hj) hu'
  have hkey := congrArg flat_key (congrArg Prod.fst he)
  rw [hk, hk', flat_key_of_key, flat_key_of_key, ← hk, ← hk'] at hkey
  have := h.wf.distinct i j _ _ (List.getElem?_eq_getElem hi) (List.getElem?_eq_getElem hj) hu hu' hkey
  omega

theorem Refines.agrees (h : Refines t m) : Agrees t m := by
  have hperm : t.iter.Perm (toList m) := by
    rw [List.perm_ext_iff_of_nodup h.iter_nodup (toList_nodup m)]
    rintro ⟨op, c⟩
    rw [h.mem_iter, mem_toList]
  have hget : ∀ op, Word op → t.get op = some (m.lookup op) ∧ t.have_ op = some (m.lookup op).isSome := by
    intro op hop
    obtain ⟨r, hg, hh, hr⟩ := h.wf.get_spec h.loaded op
    have : r = m.lookup op := by
      apply Option.ext
      intro c
      rw [hr, h.holds_iff hop]
    exact ⟨this ▸ hg, this ▸ hh⟩
  refine ⟨fun op hop => (hget op hop).1, fun op hop => (hget op hop).2, hperm, ?_⟩
  have hlen := hperm.length_eq
  rw [FlatCoins.iter, List.length_map, ← List.countP_eq_length_filter, ← h.wf.live] at hlen
  rw [len, hlen]
  simp [toList, AList.keys, List.keys]

theorem with_capacity_refines (cap : ℕ) : Refines (with_capacity cap) ∅ := by
  have hpow : ∃ e, max (next_power_of_two (at_load cap)) 16 = 2 ^ e := by
    rw [next_power_of_two, show (16 : ℕ) = 2 ^ 4 by norm_num]
    rcases le_total (Nat.clog 2 (at_load cap)) 4 with hle | hle
    · exact ⟨4, max_eq_right (Nat.pow_le_pow_right (by norm_num) hle)⟩
    · exact ⟨_, max_eq_left (Nat.pow_le_pow_right (by norm_num) hle)⟩
  obtain ⟨e, he⟩ := hpow
  refine ⟨empty_wf he [], ?_, by simp, fun key c => ?_⟩
  · exact Nat.zero_le _
  · simp only [AList.lookup_empty, reduceCtorEq, and_false, exists_false, iff_false]
    rintro ⟨i, s, hi, hs, -⟩
    have hs' := (List.mem_replicate.mp (List.mem_of_getElem? hi)).2
    rw [hs'] at hs
    exact absurd hs (by decide)

inductive Op where
  | insert (op : OutPoint) (coin : Coin)
  | remove (op : OutPoint)
  | apply_delta (map : Delta OutPoint Coin)

def Op.run : Op → FlatCoins → Option FlatCoins
  | .insert op coin, t => t.insert op coin
  | .remove op, t => t.remove op
  | .apply_delta map, t => t.apply_delta map

def Op.on_map : Op → Table OutPoint Coin → Table OutPoint Coin
  | .insert op coin, m => m.insert op coin
  | .remove op, m => m.erase op
  | .apply_delta map, m => applyDelta m map

/-- The outpoints are the source's, and every script's length fits its slot's length word. -/
def Op.Valid : Op → Prop
  | .insert op coin => Word op ∧ Fits coin
  | .remove op => Word op
  | .apply_delta map => ∀ op e, map.lookup op = some e → Word op ∧ ∀ c, e = some c → Fits c

def run_all : List Op → FlatCoins → Option FlatCoins
  | [], t => some t
  | o :: ops, t => (o.run t).bind (run_all ops)

def map_all : List Op → Table OutPoint Coin → Table OutPoint Coin
  | [], m => m
  | o :: ops, m => map_all ops (o.on_map m)

theorem Refines.run (h : Refines t m) {o : Op} (ho : o.Valid) :
    ∃ t', o.run t = some t' ∧ Refines t' (o.on_map m) := by
  cases o with
  | insert op coin => exact h.insert ho.1 ho.2
  | remove op => exact h.remove ho
  | apply_delta map =>
    obtain ⟨t', happly, h'⟩ := h.apply_entries (toList map) fun e he => ho e.1 e.2 (mem_toList.mp he)
    refine ⟨t', happly, ?_⟩
    have hlist : (toList map).map (fun e => (⟨e.1, e.2⟩ : Sigma fun _ : OutPoint => Option Coin)) = map.entries := by
      rw [toList, List.map_map]
      exact List.map_id _
    rw [hlist] at h'
    exact h'

theorem Refines.run_all (h : Refines t m) {ops : List Op} (ho : ∀ o ∈ ops, o.Valid) : ∃ t',
    run_all ops t = some t' ∧ Refines t' (map_all ops m) := by
  induction ops generalizing t m with
  | nil => exact ⟨t, rfl, h⟩
  | cons o ops ih =>
    obtain ⟨hfirst, hrest⟩ := List.forall_mem_cons.mp ho
    obtain ⟨t₁, hrun, h₁⟩ := h.run hfirst
    obtain ⟨t', hall, h'⟩ := ih h₁ hrest
    exact ⟨t', by rw [FlatCoins.run_all, hrun]; exact hall, h'⟩

theorem flat_coins_refine (cap : ℕ) (ops : List Op) (ho : ∀ o ∈ ops, o.Valid) :
    ∃ t, run_all ops (with_capacity cap) = some t ∧ Agrees t (map_all ops ∅) := by
  obtain ⟨t, hrun, h⟩ := (with_capacity_refines cap).run_all ho
  exact ⟨t, hrun, h.agrees⟩

def spill_coin : Coin := ⟨⟨5, List.replicate 41 0x51⟩, 1, true⟩

theorem flat_coins_refine_spill :
    let ops : List Op := [.insert sample_outpoint spill_coin, .remove sample_outpoint,
      .insert sample_outpoint spill_coin]
    ∃ t, run_all ops (with_capacity 0) = some t ∧ Agrees t (map_all ops ∅) := by
  intro ops
  have hvalid : Word sample_outpoint ∧ Fits spill_coin := by
    unfold Word Fits
    decide
  refine flat_coins_refine 0 ops fun o ho => ?_
  simp only [ops, List.mem_cons, List.not_mem_nil, or_false] at ho
  rcases ho with rfl | rfl | rfl
  · exact hvalid
  · exact hvalid.1
  · exact hvalid

def oversized_coin : Coin := ⟨⟨5, List.replicate (2 ^ 32) 0x51⟩, 1, false⟩

theorem oversized_script_lost :
    let ops : List Op := [.insert sample_outpoint oversized_coin]
    ¬∃ t, run_all ops (with_capacity 0) = some t ∧ Agrees t (map_all ops ∅) := by
  rintro ops ⟨t, -, h⟩
  have hget := h.get sample_outpoint (by unfold Word; decide)
  have hmap : (map_all ops ∅).lookup sample_outpoint = some oversized_coin := AList.lookup_insert _
  have hread : ∃ s pool, oversized_coin = coin_in s pool := by
    rw [hmap] at hget
    unfold FlatCoins.get at hget
    dsimp only at hget
    split at hget
    · cases hget
    split at hget
    · cases hget
    split at hget
    · exact ⟨_, _, (Option.some.inj (Option.some.inj hget)).symm⟩
    · cases hget
  obtain ⟨s, pool, hcoin⟩ := hread
  have hfits : Fits oversized_coin := hcoin ▸ fits_coin_in s pool
  rw [Fits, oversized_coin, List.length_replicate] at hfits
  exact absurd hfits (lt_irrefl _)

end FlatCoins

end AvilaNode
