import AvilaNode.HashRewrite
import AvilaNode.TableRows

/-! Runs of the store: commits, rewrites and reopenings, against a map. -/

namespace AvilaNode.HashCoins

open ByteStrings CoinCodec Function Layers LinearProbing

variable {dirty : Delta OutPoint Coin}

namespace HashStore

variable [PublicKeys] {store : HashStore} {m : Table OutPoint Coin}

structure Sound (store : HashStore) (m : Table OutPoint Coin) : Prop where
  cap : ∃ e, store.cap = 2 ^ e
  slots : store.idx.slots.length = store.cap
  filled : store.Filled store.idx.slot store.dat m
  readable : ∀ key coin, m.lookup key = some coin → Readable coin
  count : load store.cap store.idx.slot = store.count
  header : store.idx.header =
    ⟨store.cap, store.count, store.k0, store.k1, store.idx.header.tip, store.idx.header.generation⟩
  room : store.count * MAX_LOAD_DEN ≤ store.cap * MAX_LOAD_NUM
  generation : store.dat.generation = store.generation
  stamp : store.idx.header.generation = 0 ∨ store.idx.header.generation = store.generation

structure Agrees (store : HashStore) (m : Table OutPoint Coin) : Prop where
  probe : ∀ key, ∃ r, store.probe key = .ok r
  get : ∀ key, store.get key = m.lookup key
  have_ : ∀ key, store.have_ key = (m.lookup key).isSome
  iter : store.iter_coins.Perm (toList m)
  len : store.len = (toList m).length

section

variable (h : store.Sound m)
include h

theorem Sound.coin_of {s : Slot} (hs : Held store.cap store.idx.slot s) :
    ∃ coin, m.lookup s.key = some coin ∧ (store.dat.record s.slot_rec).bind (store.checked s.key) = some coin := by
  obtain ⟨coin, hcoin, hrec⟩ := h.filled.coin s hs
  refine ⟨coin, hcoin, ?_⟩
  rw [hrec, Option.bind_some, checked_stored (h.readable s.key coin hcoin)]

theorem Sound.probe_ends (key : OutPoint) : ∃ r, store.probe key = .ok r := by
  rw [probe_eq h.cap key]
  rcases h.filled.probed.probe_cases key with ⟨p, -, s, hfound, -⟩ | ⟨p, -, hfound, -⟩ <;> rw [hfound] <;> exact
    ⟨_, rfl⟩

theorem Sound.get_have (key : OutPoint) :
    store.get key = m.lookup key ∧ store.have_ key = (m.lookup key).isSome := by
  have hprobe := probe_eq h.cap key
  rcases h.filled.probed.probe_cases key with ⟨p, hp, s, hfound, hslot, rfl⟩ | ⟨p, hp, hfound, hnone, -⟩
  · obtain ⟨coin, hcoin, hread⟩ := h.coin_of ⟨p, hp, hslot⟩
    rw [hfound] at hprobe
    rw [get, HashStore.have_, hprobe, hcoin]
    exact ⟨by simpa only [outcome, Option.elim_some, hslot] using hread, rfl⟩
  · have habsent : m.lookup key = none := by
      rw [h.filled.absent_iff]
      rintro s ⟨q, hq, hs⟩ rfl
      rw [h.filled.probed.probe_held hq hs] at hfound
      cases hfound
    rw [hfound] at hprobe
    rw [get, HashStore.have_, hprobe, habsent]
    exact ⟨rfl, rfl⟩

theorem Sound.mem_slots {s : Slot} : some s ∈ store.idx.slots ↔
    Held store.cap store.idx.slot s := by
  rw [← held_view, h.slots]
  rfl

theorem Sound.mem_iter (e : OutPoint × Coin) : e ∈ store.iter_coins ↔ e ∈ toList m := by
  obtain ⟨key, coin⟩ := e
  rw [iter_coins, List.mem_filterMap, mem_toList]
  constructor
  · rintro ⟨slot, hslot, he⟩
    cases slot with
    | none => cases he
    | some s =>
      obtain ⟨c, hc, hread⟩ := h.coin_of (h.mem_slots.mp hslot)
      rw [Option.bind_some, hread] at he
      cases he
      exact hc
  · intro hc
    obtain ⟨s, hs, rfl⟩ := h.filled.held key coin hc
    obtain ⟨c, hc', hread⟩ := h.coin_of hs
    rw [hc] at hc'
    cases hc'
    exact ⟨some s, h.mem_slots.mpr hs, by rw [Option.bind_some, hread]; rfl⟩

theorem Sound.iter_nodup : store.iter_coins.Nodup := by
  rw [iter_coins, List.Nodup, List.pairwise_filterMap]
  refine (distinct_of_probed h.slots h.filled.probed).imp ?_
  intro a b hne x hx y hy hxy
  obtain ⟨s, rfl, hs⟩ := Option.bind_eq_some_iff.mp hx
  obtain ⟨s', rfl, hs'⟩ := Option.bind_eq_some_iff.mp hy
  obtain ⟨coin, _, rfl⟩ := Option.map_eq_some_iff.mp hs
  obtain ⟨coin', _, rfl⟩ := Option.map_eq_some_iff.mp hs'
  exact hne s s' rfl rfl (congrArg Prod.fst hxy)

theorem Sound.agrees : store.Agrees m := by
  have hperm : store.iter_coins.Perm (toList m) :=
    (List.perm_ext_iff_of_nodup h.iter_nodup (toList_nodup m)).mpr h.mem_iter
  refine ⟨h.probe_ends, fun key => (h.get_have key).1, fun key => (h.get_have key).2, hperm, ?_⟩
  have hlen : store.iter_coins.length = store.idx.slots.countP Option.isSome := by
    rw [iter_coins, List.length_filterMap_eq_countP]
    apply List.countP_congr
    intro slot hslot
    cases slot with
    | none => rfl
    | some s =>
      obtain ⟨c, -, hread⟩ := h.coin_of (h.mem_slots.mp hslot)
      rw [Option.bind_some, hread]
      rfl
  rw [← hperm.length_eq, hlen, ← load_view, h.slots]
  exact h.count.symm

end

omit [PublicKeys] in
theorem load_empty (cap : ℕ) : load cap (view (List.replicate cap none)) = 0 := by
  rw [view_replicate, load_none]

def fresh (k0 k1 : BitVec 64) : HashStore :=
  ⟨U64_MAX, 0, k0, k1, 0, INIT_CAP, ⟨⟨INIT_CAP, 0, k0, k1, U64_MAX, 0⟩, List.replicate INIT_CAP none⟩, ⟨0, []⟩⟩

def closed (store : HashStore) : Disk := ⟨some store.idx, some store.dat, none, none, none⟩

theorem fresh_sound (k0 k1 : BitVec 64) : (fresh k0 k1).Sound ∅ := by
  have hcap : ∃ e, (fresh k0 k1).cap = 2 ^ e := ⟨10, rfl⟩
  have hnone : ∀ s, ¬Held (fresh k0 k1).cap (fresh k0 k1).idx.slot s := by
    rintro s ⟨p, -, hs⟩
    change view (List.replicate INIT_CAP none) p = some s at hs
    rw [view_replicate] at hs
    cases hs
  have hload : load (fresh k0 k1).cap (fresh k0 k1).idx.slot = 0 := load_empty INIT_CAP
  refine ⟨hcap, List.length_replicate, ⟨⟨home_lt hcap, ?_, ?_, ?_⟩, ?_, ?_, ?_, ?_⟩, ?_, hload, rfl, ?_, rfl,
    .inl rfl⟩
  · exact fun p hp s hs => absurd ⟨p, hp, hs⟩ (hnone s)
  · exact fun p hp _ _ s _ hs => absurd ⟨p, hp, hs⟩ (hnone s)
  · rw [hload]
    exact Nat.succ_pos _
  · exact fun s hs => absurd hs (hnone s)
  · intro key coin hc
    cases hc
  · exact fun s _ _ hs => absurd hs (hnone s)
  · exact fun s _ _ _ _ _ hs => absurd hs (hnone s)
  · intro key coin hc
    cases hc
  · exact Nat.zero_le _

section

variable (h : store.Sound m)
include h

theorem Sound.maybe_grow (pending : ℕ) : ∃ store', store.maybe_grow_locked pending = .ok store' ∧
    store'.Sound m ∧ store'.tip = store.tip ∧ store'.count = store.count ∧
    (store.count + pending) * MAX_LOAD_DEN ≤ store'.cap * MAX_LOAD_NUM := by
  unfold maybe_grow_locked
  dsimp only
  split_ifs with hfits
  · exact ⟨store, rfl, h, rfl, rfl, hfits⟩
  obtain ⟨cap, slots, hgrown, hcap, hlen, hle, hprobed, hheld, hload⟩ :=
    grown_spec h.cap h.slots h.filled.probed h.count (Nat.le_add_right store.count pending)
  rw [hgrown]
  refine ⟨_, rfl, ⟨hcap, hlen, ⟨hprobed, ?_, ?_, ?_, ?_⟩, h.readable, hload, rfl, ?_, h.generation, .inl rfl⟩,
    rfl, rfl, hle⟩
  · exact fun s hs => h.filled.coin s ((hheld s).mp hs)
  · intro key coin hc
    obtain ⟨s, hs, hkey⟩ := h.filled.held key coin hc
    exact ⟨s, (hheld s).mpr hs, hkey⟩
  · exact fun s off len hs => h.filled.inside s off len ((hheld s).mp hs)
  · exact fun s s' off len off' len' hs hs' =>
      h.filled.apart s s' off len off' len' ((hheld s).mp hs) ((hheld s').mp hs')
  · exact (Nat.mul_le_mul_right _ (Nat.le_add_right _ _)).trans hle

theorem Sound.start {todo : List OutPoint}
    (hroom : (store.count + todo.length) * MAX_LOAD_DEN ≤ store.cap * MAX_LOAD_NUM) :
    store.InCommit ⟨∅, store.dat, [], 0⟩ m todo := by
  have hdat : whole_log ⟨∅, store.dat, [], 0⟩ = store.dat := by
    rw [whole_log]
    simp
  refine ⟨?_, ?_, ?_, ?_, ?_, rfl⟩
  · rw [hdat, slot_at_empty]
    exact h.filled
  · intro i hi
    simp at hi
  · intro s off len hs _ hspill
    rw [slot_at_empty] at hs
    exact (h.filled.inside s off len hs hspill).2
  · rw [slot_at_empty, h.count]
    simp
  · rw [slot_at_empty, h.count]
    exact hroom

theorem Sound.commit (tip : Option ℕ) (hreadable : ∀ key coin, dirty.lookup key = some (some coin) → Readable coin) :
    ∃ delta store', store.commit_coins dirty tip = .ok (delta, store') ∧ store'.Sound (applyDelta m dirty) ∧
      store'.tip = tip.getD store.tip := by
  obtain ⟨grown, hgrow, hg, htip, hcount, hroom⟩ := h.maybe_grow dirty.entries.length
  rw [← hcount, ← List.length_map (f := Sigma.fst)] at hroom
  obtain ⟨c, hrun, hc⟩ := (hg.start hroom).run hg.cap dirty.nodupKeys fun key coin he =>
    hreadable key coin (AList.mem_lookup_iff.mpr he)
  have hview : (fun j => (write_slots grown.idx.slots c.stage)[j]?.join) = grown.slot_at c.stage :=
    funext (write_slots_eq hg.slots hc.staged)
  have hload : ((grown.count + c.delta).toNat : ℤ) = grown.count + c.delta := by
    rw [← hc.count]
    simp
  refine ⟨c.delta, grown.write_commit c tip, ?_,
    ⟨hg.cap, (length_write_slots _ _).trans hg.slots, ?_, ?_, ?_, ?_, ?_, ?_, hg.stamp⟩, ?_⟩
  · rw [commit_coins, hgrow]
    change ((toList dirty).foldlM grown.commit_entry _).bind _ = _
    rw [toList, hrun]
    rfl
  · have hfilled := hc.filled
    rw [← hview] at hfilled
    exact ⟨hfilled.probed, hfilled.coin, hfilled.held, hfilled.inside, hfilled.apart⟩
  · intro key coin hcoin
    rw [lookup_applyDelta, overlaid] at hcoin
    cases hentry : dirty.lookup key with
    | none =>
      rw [hentry] at hcoin
      exact h.readable key coin hcoin
    | some entry =>
      rw [hentry] at hcoin
      change entry = some coin at hcoin
      rw [hcoin] at hentry
      exact hreadable key coin hentry
  · have hc' := hc.count
    change load grown.cap (fun j => (write_slots grown.idx.slots c.stage)[j]?.join) = (grown.count + c.delta).toNat
    rw [hview]
    omega
  · rw [write_commit, hg.header]
  · have hc' := hc.count
    have hle := hc.room
    change (grown.count + c.delta).toNat * MAX_LOAD_DEN ≤ grown.cap * MAX_LOAD_NUM
    rw [MAX_LOAD_DEN, MAX_LOAD_NUM]
    rw [List.length_nil] at hle
    omega
  · exact hc.generation.trans hg.generation
  · rw [write_commit, htip]

theorem Sound.compact : ∃ store', store.compact = .ok store' ∧ store'.Sound m ∧
    store'.tip = store.tip := by
  obtain ⟨slots, log, hcompacted, hlen, hfilled, hload⟩ := compacted_spec h.slots h.filled
  rw [HashStore.compact, hcompacted]
  refine ⟨_, rfl, ⟨h.cap, hlen, ⟨hfilled.probed, hfilled.coin, hfilled.held, hfilled.inside, hfilled.apart⟩,
    h.readable, hload.trans h.count, ?_, h.room, rfl, .inr rfl⟩, rfl⟩
  rw [h.header]

theorem Sound.reopen (htip : store.idx.header.tip = store.tip)
    (hgen : store.idx.header.generation = store.dat.generation) (k0 k1 : BitVec 64) :
    open_dir store.closed k0 k1 = .ok (store, store.closed) := by
  have hheader := h.header
  rw [htip, hgen, h.generation] at hheader
  have hopen : open_dir store.closed k0 k1 =
    .ok (⟨store.idx.header.tip, store.idx.header.generation, store.idx.header.k0,
      store.idx.header.k1, store.idx.header.count, store.idx.header.cap, store.idx, store.dat⟩, store.closed) := by
    rw [open_dir, closed]
    change (reconcile_generations _ _ _).bind _ = _
    rw [reconcile_generations, if_pos hgen]
    rfl
  rw [hopen, hheader]

end

omit [PublicKeys] in
theorem open_torn (hgen : store.idx.header.generation ≠ store.dat.generation) (k0 k1 : BitVec 64) :
    open_dir store.closed k0 k1 = .error (.InvalidData "coinsdb: torn compact") := by
  rw [open_dir, closed]
  change (reconcile_generations _ _ _).bind _ = _
  rw [reconcile_generations, if_neg hgen]
  split_ifs <;> rfl

variable {store' : HashStore}

omit [PublicKeys] in
theorem grow_forgets {pending : ℕ} (h : store.maybe_grow_locked pending = .ok store')
    (hgrow : store.cap * MAX_LOAD_NUM < (store.count + pending) * MAX_LOAD_DEN) :
    store'.idx.header.generation = 0 ∧ store'.idx.header.tip = 0 ∧ store'.dat = store.dat := by
  rw [maybe_grow_locked] at h
  rw [if_neg (Nat.not_le.mpr hgrow), grown] at h
  cases hdouble : double_until (store.count + pending) ((store.count + pending) * MAX_LOAD_DEN + 1)
    (store.cap * 2) with
  | error e =>
    rw [hdouble] at h
    cases h
  | ok cap =>
    rw [hdouble] at h
    cases hrun : store.idx.slots.foldlM (store.rehash cap) (List.replicate cap none) with
    | error e =>
      simp [hrun, bind, Except.bind, Except.map] at h
    | ok slots =>
      simp only [hrun, bind, Except.bind, pure, Except.pure, Except.map, Except.ok.injEq] at h
      subst h
      exact ⟨rfl, rfl, rfl⟩

omit [PublicKeys] in
theorem compact_stamps (h : store.compact = .ok store') :
    store'.idx.header.generation = store.generation + 1 ∧ store'.dat.generation = store.generation + 1 ∧
      store'.idx.header.tip = store.idx.header.tip ∧ store'.tip = store.tip ∧ store'.cap = store.cap ∧
      store'.count = store.count := by
  rw [HashStore.compact, compacted] at h
  cases hrun : store.idx.slots.foldlM (rewrite store.dat) ([], []) with
  | error e => simp [hrun, bind, Except.bind, Except.map] at h
  | ok r =>
    simp only [hrun, bind, Except.bind, pure, Except.pure, Except.map, Except.ok.injEq] at h
    subst h
    exact ⟨rfl, rfl, rfl, rfl, rfl, rfl⟩

omit [PublicKeys] in
theorem grown_torn {compacted grown : HashStore} {pending : ℕ} (hcompact : store.compact = .ok compacted)
    (hgrow : compacted.maybe_grow_locked pending = .ok grown)
    (hneed : store.cap * MAX_LOAD_NUM < (store.count + pending) * MAX_LOAD_DEN) :
    grown.idx.header.generation ≠ grown.dat.generation := by
  obtain ⟨-, hdat, -, -, hcap, hcount⟩ := compact_stamps hcompact
  obtain ⟨hgen, -, hsame⟩ := grow_forgets hgrow (by rwa [hcap, hcount])
  rw [hgen, hsame, hdat]
  exact (Nat.succ_ne_zero _).symm

theorem commit_marks {tip : ℕ} {delta : ℤ} (h : store.commit_coins dirty (some tip) = .ok (delta, store')) :
    store'.idx.header.tip = tip ∧ store'.tip = tip := by
  rw [commit_coins] at h
  cases hgrow : store.maybe_grow_locked dirty.entries.length with
  | error e => simp [hgrow, bind, Except.bind] at h
  | ok grown =>
    cases hrun : (toList dirty).foldlM grown.commit_entry ⟨∅, grown.dat, [], 0⟩ with
    | error e => simp [hgrow, hrun, bind, Except.bind] at h
    | ok c =>
      simp only [hgrow, hrun, bind, Except.bind, pure, Except.pure, Except.ok.injEq, Prod.mk.injEq] at h
      rw [← h.2]
      exact ⟨rfl, rfl⟩

end HashStore

structure Session where
  store : HashStore
  coins : Table OutPoint Coin
  tip : ℕ

inductive Event where
  | commit (dirty : Delta OutPoint Coin) (tip : Option ℕ)
  | reserve (additional : ℕ)
  | compact
  | sync
  | reopen (k0 k1 : BitVec 64)

theorem map_eq_ok {β γ : Type} {r : Except HashError β} {f : β → γ} {c : γ} (h : r.map f = .ok c) :
    ∃ b, r = .ok b ∧ f b = c := by
  cases r with
  | error e => cases h
  | ok b => exact ⟨b, rfl, Except.ok.inj h⟩

theorem bind_eq_ok {β γ : Type} {r : Except HashError β} {f : β → Except HashError γ} {c : γ} (h : r.bind f = .ok c) :
    ∃ b, r = .ok b ∧ f b = .ok c := by
  cases r with
  | error e => cases h
  | ok b => exact ⟨b, rfl, h⟩

namespace Session

def fresh (k0 k1 : BitVec 64) : Session := ⟨HashStore.fresh k0 k1, ∅, HashStore.U64_MAX⟩

variable [PublicKeys]

def step (s : Session) : Event → Except HashError Session
  | .commit dirty tip => (s.store.commit_coins dirty tip).map fun r => ⟨r.2, applyDelta s.coins dirty, tip.getD s.tip⟩
  | .reserve additional => (s.store.reserve additional).map fun store => { s with store := store }
  | .compact => s.store.compact.map fun store => { s with store := store }
  | .sync => .ok s
  | .reopen k0 k1 => (HashStore.open_dir s.store.closed k0 k1).map fun r => { s with store := r.1 }

def run : Session → List Event → Except HashError Session
  | s, [] => .ok s
  | s, e :: events => (s.step e).bind fun s => s.run events

variable {k0 k1 : BitVec 64} {additional : ℕ}

section

variable {s s' : Session}

theorem of_commit {tip : Option ℕ} (h : s.step (.commit dirty tip) = .ok s') :
    ∃ r, s.store.commit_coins dirty tip = .ok r ∧ s' = ⟨r.2, applyDelta s.coins dirty, tip.getD s.tip⟩ := by
  obtain ⟨r, hcommit, rfl⟩ := map_eq_ok h
  exact ⟨r, hcommit, rfl⟩

theorem of_reserve (h : s.step (.reserve additional) = .ok s') :
    ∃ store, s.store.maybe_grow_locked additional = .ok store ∧ s' = { s with store := store } := by
  obtain ⟨store, hgrow, rfl⟩ := map_eq_ok h
  exact ⟨store, hgrow, rfl⟩

theorem of_compact (h : s.step .compact = .ok s') :
    ∃ store, s.store.compact = .ok store ∧ s' = { s with store := store } := by
  obtain ⟨store, hcompact, rfl⟩ := map_eq_ok h
  exact ⟨store, hcompact, rfl⟩

theorem of_reopen (h : s.step (.reopen k0 k1) = .ok s') :
    ∃ r, HashStore.open_dir s.store.closed k0 k1 = .ok r ∧ s' = { s with store := r.1 } := by
  obtain ⟨r, hopen, rfl⟩ := map_eq_ok h
  exact ⟨r, hopen, rfl⟩

end

def Stamped (store : HashStore) : Prop :=
  store.idx.header.tip = store.tip ∧ store.idx.header.generation = store.dat.generation

def Fits (s : Session) : Event → Prop
  | .commit dirty _ => ∀ key coin, dirty.lookup key = some (some coin) → Readable coin
  | .reserve additional => (s.store.count + additional) * MAX_LOAD_DEN < 0x8000000000000000
  | .reopen _ _ => Stamped s.store
  | _ => True

def AllFit : Session → List Event → Prop
  | _, [] => True
  | s, e :: events => s.Fits e ∧ ∀ s', s.step e = .ok s' → s'.AllFit events

def Kept (s : Session) : Prop := s.store.Sound s.coins ∧ s.store.tip = s.tip

variable {s : Session}

theorem fresh_kept (k0 k1 : BitVec 64) : (fresh k0 k1).Kept := ⟨HashStore.fresh_sound k0 k1, rfl⟩

theorem Kept.step (h : s.Kept) {e : Event} (hfits : s.Fits e) : ∃ s', s.step e = .ok s' ∧ s'.Kept := by
  obtain ⟨hsound, htip⟩ := h
  cases e with
  | commit dirty tip =>
    obtain ⟨delta, store, hcommit, hs, ht⟩ := hsound.commit tip hfits
    refine ⟨_, by rw [Session.step, hcommit]; rfl, hs, ?_⟩
    rw [ht, htip]
  | reserve additional =>
    obtain ⟨store, hgrow, hs, ht, -⟩ := hsound.maybe_grow additional
    exact ⟨_, by rw [Session.step, HashStore.reserve, hgrow]; rfl, hs, ht.trans htip⟩
  | compact =>
    obtain ⟨store, hcompact, hs, ht⟩ := hsound.compact
    exact ⟨_, by rw [Session.step, hcompact]; rfl, hs, ht.trans htip⟩
  | sync => exact ⟨s, rfl, hsound, htip⟩
  | reopen k0 k1 => exact ⟨s, by rw [Session.step, hsound.reopen hfits.1 hfits.2]; rfl, hsound, htip⟩

theorem Kept.run (h : s.Kept) {events : List Event} (hfits : s.AllFit events) : ∃ s', s.run events = .ok s' ∧
    s'.Kept := by
  induction events generalizing s with
  | nil => exact ⟨s, rfl, h⟩
  | cons e events ih =>
    obtain ⟨s', hstep, h'⟩ := h.step hfits.1
    obtain ⟨s'', hrun⟩ := ih h' (hfits.2 s' hstep)
    refine ⟨s'', ?_⟩
    rwa [Session.run, hstep]

theorem unopened (hneed : s.store.cap * MAX_LOAD_NUM < (s.store.count + additional) * MAX_LOAD_DEN) (s' : Session) :
    s.run [.compact, .reserve additional, .reopen k0 k1] ≠ .ok s' := by
  intro hrun
  obtain ⟨s₁, hcompact, hrun⟩ := bind_eq_ok hrun
  obtain ⟨s₂, hreserve, hrun⟩ := bind_eq_ok hrun
  obtain ⟨s₃, hreopen, -⟩ := bind_eq_ok hrun
  obtain ⟨compacted, hc, rfl⟩ := of_compact hcompact
  obtain ⟨grown, hg, rfl⟩ := of_reserve hreserve
  obtain ⟨r, ho, -⟩ := of_reopen hreopen
  rw [HashStore.open_torn (HashStore.grown_torn hc hg hneed)] at ho
  cases ho

theorem Kept.reopen_iff (h : s.Kept) (k0 k1 : BitVec 64) :
    (∃ r, HashStore.open_dir s.store.closed k0 k1 = .ok r ∧ r.1.tip_watermark = s.tip) ↔ Stamped s.store := by
  obtain ⟨hsound, htip⟩ := h
  constructor
  · rintro ⟨r, hopen, hmark⟩
    by_cases hgen : s.store.idx.header.generation = s.store.dat.generation
    · refine ⟨?_, hgen⟩
      rw [HashStore.open_dir, HashStore.closed] at hopen
      change (HashStore.reconcile_generations _ _ _).bind _ = _ at hopen
      rw [HashStore.reconcile_generations, if_pos hgen] at hopen
      cases hopen
      exact hmark.trans htip.symm
    · rw [HashStore.open_torn hgen] at hopen
      cases hopen
  · rintro ⟨hmark, hgen⟩
    exact ⟨_, hsound.reopen hmark hgen k0 k1, htip⟩

end Session

section

@[reducible] def no_points : PublicKeys where
  is_point _ := false
  from_x_only _ _ := none
  length_from_x_only := PublicKeys.length_of_none
  from_x_only_of_point := PublicKeys.none_of_point

attribute [local instance] no_points

def sample_dirty : Delta OutPoint Coin := (∅ : Delta OutPoint Coin).insert sample_outpoint (some sample_coin)

theorem sample_readable {key : OutPoint} {coin : Coin} (h : sample_dirty.lookup key = some (some coin)) :
    Readable coin := by
  rw [sample_dirty, lookup_insert_eq] at h
  split_ifs at h
  · cases h
    exact ⟨by decide +kernel, by decide +kernel⟩
  · simp at h

def sample_events : List Event := [.commit sample_dirty (some 5), .compact, .reopen 3 4]

theorem sample_fit : (Session.fresh 1 2).AllFit sample_events := by
  refine ⟨fun key coin => sample_readable, fun s hs => ⟨trivial, fun s' hs' => ⟨?_, fun _ _ => trivial⟩⟩⟩
  obtain ⟨r, hcommit, rfl⟩ := Session.of_commit hs
  obtain ⟨store, hcompact, rfl⟩ := Session.of_compact hs'
  obtain ⟨hmark, htip⟩ := HashStore.commit_marks hcommit
  obtain ⟨hgen, hdat, hkept, htip', -⟩ := HashStore.compact_stamps hcompact
  exact ⟨hkept.trans (hmark.trans (htip'.trans htip).symm), hgen.trans hdat.symm⟩

end

end AvilaNode.HashCoins
