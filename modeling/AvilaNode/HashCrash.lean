import AvilaNode.HashRuns

/-! What a crash leaves of a store whose files are being rewritten. -/

namespace AvilaNode.HashCoins

open CoinCodec Layers

inductive DiskOp where
  | write_dat_new
  | write_idx_new
  | sync_dat_new (dat : Dat)
  | sync_idx_new (idx : Idx)
  | rename_idx_new
  | rename_dat_new
  | write_idx_grow
  | sync_idx_grow (idx : Idx)
  | rename_idx_grow

/-- What an operation may have done to the disk: a file that is not synced may hold anything, and a rename may not
have been made to last. -/
inductive Effect : DiskOp → Disk → Disk → Prop
  | write_dat_new (disk : Disk) (content : Option Dat) : Effect .write_dat_new disk { disk with dat_new := content }
  | write_idx_new (disk : Disk) (content : Option Idx) : Effect .write_idx_new disk { disk with idx_new := content }
  | sync_dat_new (disk : Disk) (dat : Dat) : Effect (.sync_dat_new dat) disk { disk with dat_new := some dat }
  | sync_idx_new (disk : Disk) (idx : Idx) : Effect (.sync_idx_new idx) disk { disk with idx_new := some idx }
  | rename_idx_new (disk : Disk) : Effect .rename_idx_new disk { disk with idx := disk.idx_new, idx_new := none }
  | rename_idx_new_lost (disk : Disk) : Effect .rename_idx_new disk disk
  | rename_dat_new (disk : Disk) : Effect .rename_dat_new disk { disk with dat := disk.dat_new, dat_new := none }
  | rename_dat_new_lost (disk : Disk) : Effect .rename_dat_new disk disk
  | write_idx_grow (disk : Disk) (content : Option Idx) :
    Effect .write_idx_grow disk { disk with idx_grow := content }
  | sync_idx_grow (disk : Disk) (idx : Idx) : Effect (.sync_idx_grow idx) disk { disk with idx_grow := some idx }
  | rename_idx_grow (disk : Disk) : Effect .rename_idx_grow disk { disk with idx := disk.idx_grow, idx_grow := none }
  | rename_idx_grow_lost (disk : Disk) : Effect .rename_idx_grow disk disk

/-- A crash anywhere in `ops`, or after them, may leave `disk'` of `disk`. -/
def Leaves : List DiskOp → Disk → Disk → Prop
  | [], disk, disk' => disk' = disk
  | op :: ops, disk, disk' => disk' = disk ∨ ∃ disk₁, Effect op disk disk₁ ∧ Leaves ops disk₁ disk'

namespace HashStore

variable {store : HashStore}

def compact_ops (store : HashStore) : Except HashError (List DiskOp) :=
  store.compacted.map fun files => [.write_dat_new, .write_idx_new, .sync_dat_new files.2, .sync_idx_new files.1,
    .rename_idx_new, .rename_dat_new]

def grow_ops (store : HashStore) (pending : ℕ) : Except HashError (List DiskOp) :=
  let need := store.count + pending
  if need * MAX_LOAD_DEN ≤ store.cap * MAX_LOAD_NUM then .ok []
  else (store.grown need).map fun idx => [.write_idx_grow, .sync_idx_grow idx, .rename_idx_grow]

def Before (store : HashStore) (disk : Disk) : Prop := disk.idx = some store.idx ∧ disk.dat = some store.dat

structure Halfway (store : HashStore) (idx : Idx) (dat : Dat) (disk : Disk) : Prop where
  idx : disk.idx = some idx ∨ disk.idx = some store.idx ∧ disk.idx_new = some idx
  dat : disk.dat = some dat ∨ disk.dat = some store.dat ∧ disk.dat_new = some dat

variable {idx : Idx} {dat : Dat} {disk : Disk}

theorem compact_crash (h : Leaves [.write_dat_new, .write_idx_new, .sync_dat_new dat, .sync_idx_new idx,
    .rename_idx_new, .rename_dat_new] store.closed disk) : store.Before disk ∨ store.Halfway idx dat disk := by
  rcases h with rfl | ⟨_, he, h⟩
  · exact .inl ⟨rfl, rfl⟩
  cases he
  rcases h with rfl | ⟨_, he, h⟩
  · exact .inl ⟨rfl, rfl⟩
  cases he
  rcases h with rfl | ⟨_, he, h⟩
  · exact .inl ⟨rfl, rfl⟩
  cases he
  rcases h with rfl | ⟨_, he, h⟩
  · exact .inl ⟨rfl, rfl⟩
  cases he
  rcases h with rfl | ⟨_, he, h⟩
  · exact .inl ⟨rfl, rfl⟩
  -- each rename lasts or does not
  cases he <;> rcases h with rfl | ⟨_, he, h⟩
  · exact .inr ⟨.inl rfl, .inr ⟨rfl, rfl⟩⟩
  · cases he <;> cases h
    · exact .inr ⟨.inl rfl, .inl rfl⟩
    · exact .inr ⟨.inl rfl, .inr ⟨rfl, rfl⟩⟩
  · exact .inl ⟨rfl, rfl⟩
  · cases he <;> cases h
    · exact .inr ⟨.inr ⟨rfl, rfl⟩, .inl rfl⟩
    · exact .inl ⟨rfl, rfl⟩

theorem grow_crash (h : Leaves [.write_idx_grow, .sync_idx_grow idx, .rename_idx_grow] store.closed disk) :
    store.Before disk ∨ disk.idx = some idx ∧ disk.dat = some store.dat := by
  rcases h with rfl | ⟨_, he, h⟩
  · exact .inl ⟨rfl, rfl⟩
  cases he
  rcases h with rfl | ⟨_, he, h⟩
  · exact .inl ⟨rfl, rfl⟩
  cases he
  rcases h with rfl | ⟨_, he, h⟩
  · exact .inl ⟨rfl, rfl⟩
  cases he <;> cases h
  · exact .inr ⟨rfl, rfl⟩
  · exact .inl ⟨rfl, rfl⟩

def opened (idx : Idx) (dat : Dat) (generation : ℕ) : HashStore :=
  ⟨idx.header.tip, generation, idx.header.k0, idx.header.k1, idx.header.count, idx.header.cap, idx, dat⟩

theorem open_pair (hidx : disk.idx = some idx) (hdat : disk.dat = some dat)
    (hgen : idx.header.generation = dat.generation) (k0 k1 : BitVec 64) :
    ∃ disk', open_dir disk k0 k1 = .ok (opened idx dat dat.generation, disk') := by
  refine ⟨{ disk with dat_new := none, idx_new := none, idx_grow := none }, ?_⟩
  rw [open_dir, hidx, hdat]
  change (reconcile_generations _ _ _).bind _ = _
  rw [reconcile_generations, if_pos hgen]
  simp [Except.bind, hidx, hdat, opened, hgen, pure, Except.pure]

theorem open_halfway (h : store.Halfway idx dat disk) (hgen : store.idx.header.generation = store.dat.generation)
    (hheader : idx.header = { store.idx.header with generation := store.dat.generation + 1 })
    (hdat : dat.generation = store.dat.generation + 1) (k0 k1 : BitVec 64) (hold : ¬store.Before disk) :
    ∃ disk', open_dir disk k0 k1 = .ok (opened idx dat dat.generation, disk') := by
  have hnew : idx.header.generation = dat.generation := by rw [hheader, hdat]
  rcases h.idx with hi | ⟨hi, hin⟩ <;> rcases h.dat with hd | ⟨hd, hdn⟩
  · exact open_pair hi hd hnew k0 k1
  · refine ⟨{ disk with dat := some dat, dat_new := none }, ?_⟩
    rw [open_dir, hi, hd]
    change (reconcile_generations _ _ _).bind _ = _
    rw [reconcile_generations, if_neg (by rw [hnew, hdat]; omega), if_pos (by rw [hnew, hdat]; omega), hdn]
    simp [Except.bind, hi, hnew, opened, pure, Except.pure]
  · refine ⟨{ disk with idx := some idx, idx_new := none }, ?_⟩
    rw [open_dir, hi, hd]
    change (reconcile_generations _ _ _).bind _ = _
    rw [reconcile_generations, if_neg (by rw [hgen, hdat]; omega), if_neg (by rw [hgen, hdat]; omega), hin]
    simp [Except.bind, hd, hdat, opened, pure, Except.pure, hheader]
  · exact absurd ⟨hi, hd⟩ hold

variable [PublicKeys] {m : Table OutPoint Coin}

def Recovers (store : HashStore) (disk : Disk) : Prop :=
  ∀ k0 k1, ∃ r, open_dir disk k0 k1 = .ok r ∧ r.1.len = store.len ∧ r.1.iter_coins.Perm store.iter_coins ∧
    ∀ key, r.1.get key = store.get key ∧ r.1.have_ key = store.have_ key

variable {store' : HashStore}

theorem Sound.same_coins (h : store.Sound m) (h' : store'.Sound m) : store'.len = store.len ∧
    store'.iter_coins.Perm store.iter_coins ∧ ∀ key, store'.get key = store.get key ∧
      store'.have_ key = store.have_ key := by
  have ha := h.agrees
  have ha' := h'.agrees
  exact ⟨ha'.len.trans ha.len.symm, ha'.iter.trans ha.iter.symm,
    fun key => ⟨(ha'.get key).trans (ha.get key).symm, (ha'.have_ key).trans (ha.have_ key).symm⟩⟩

theorem Sound.opened_sound (h : store.Sound m) : (opened store.idx store.dat store.generation).Sound m := by
  have hopened : opened store.idx store.dat store.generation = { store with tip := store.idx.header.tip } := by
    rw [opened, h.header]
  rw [hopened]
  exact ⟨h.cap, h.slots, ⟨h.filled.probed, h.filled.coin, h.filled.held, h.filled.inside, h.filled.apart⟩, h.readable,
    h.count, h.header, h.room, h.generation, h.stamp⟩

theorem Sound.recovers_of_pair (h : store.Sound m) (h' : store'.Sound m)
    (hopen : ∀ k0 k1,
    ∃ disk', open_dir disk k0 k1 = .ok (opened store'.idx store'.dat store'.dat.generation, disk')) :
    store.Recovers disk := by
  intro k0 k1
  obtain ⟨disk', heq⟩ := hopen k0 k1
  rw [h'.generation] at heq
  exact ⟨_, heq, h.same_coins h'.opened_sound⟩

theorem Sound.recovers_before (h : store.Sound m) (hbefore : store.Before disk)
    (hgen : store.idx.header.generation = store.dat.generation) : store.Recovers disk :=
  h.recovers_of_pair h (open_pair hbefore.1 hbefore.2 hgen)

theorem not_recovers_closed (hgen : store.idx.header.generation ≠ store.dat.generation) :
    ¬store.Recovers store.closed := by
  intro hr
  obtain ⟨r, hopen, -⟩ := hr 0 0
  rw [open_torn hgen] at hopen
  cases hopen

theorem Sound.compact_safe_iff (h : store.Sound m) : ∃ ops, store.compact_ops = .ok ops ∧
    ((∀ disk, Leaves ops store.closed disk → store.Recovers disk) ↔
      store.idx.header.generation = store.dat.generation) := by
  obtain ⟨store', hcompact, h', -⟩ := h.compact
  obtain ⟨files, hcompacted, rfl⟩ := map_eq_ok hcompact
  refine ⟨_, by rw [compact_ops, hcompacted]; rfl, fun hsafe => ?_, fun hgen disk hleaves => ?_⟩
  · by_contra hgen
    exact not_recovers_closed hgen (hsafe store.closed (.inl rfl))
  · obtain ⟨slots, log, hspec, -⟩ := compacted_spec h.slots h.filled
    rw [hspec] at hcompacted
    cases hcompacted
    by_cases hbefore : store.Before disk
    · exact h.recovers_before hbefore hgen
    · have hhalf := (compact_crash hleaves).resolve_left hbefore
      exact h.recovers_of_pair h' fun k0 k1 =>
        open_halfway hhalf hgen (by rw [h.generation]) (by rw [h.generation]) k0 k1 hbefore

theorem Sound.grow_safe_iff (h : store.Sound m) {pending : ℕ}
    (hneed : store.cap * MAX_LOAD_NUM < (store.count + pending) * MAX_LOAD_DEN) : ∃ ops,
      store.grow_ops pending = .ok ops ∧
    ((∀ disk, Leaves ops store.closed disk → store.Recovers disk) ↔ store.dat.generation = 0) := by
  obtain ⟨store', hgrow, h', -⟩ := h.maybe_grow pending
  obtain ⟨hforgot, -, hdat⟩ := grow_forgets hgrow hneed
  rw [maybe_grow_locked] at hgrow
  rw [if_neg (Nat.not_le.mpr hneed)] at hgrow
  obtain ⟨idx, hgrown, rfl⟩ := map_eq_ok hgrow
  refine ⟨_, by rw [grow_ops]; rw [if_neg (Nat.not_le.mpr hneed), hgrown]; rfl, fun hsafe =>
    ?_, fun hzero disk hleaves => ?_⟩
  · by_contra hgen
    obtain ⟨r, hopen, -⟩ := hsafe ⟨some idx, some store.dat, none, none, none⟩
      (.inr ⟨_, .write_idx_grow _ none, .inr ⟨_, .sync_idx_grow _ _, .inr ⟨_, .rename_idx_grow _, rfl⟩⟩⟩) 0 0
    have htorn := @open_torn { store with idx := idx, cap := idx.header.cap } (by
      rw [hforgot]
      exact Ne.symm hgen) 0 0
    change open_dir ⟨some idx, some store.dat, none, none, none⟩ 0 0 = _ at htorn
    rw [htorn] at hopen
    cases hopen
  · have hgen : store.idx.header.generation = store.dat.generation := by
      rcases h.stamp with hstamp | hstamp
      · rw [hstamp, hzero]
      · rw [hstamp, h.generation]
    rcases grow_crash hleaves with hbefore | ⟨hi, hd⟩
    · exact h.recovers_before hbefore hgen
    · exact h.recovers_of_pair h' (open_pair hi hd (hforgot.trans hzero.symm))

end HashStore

theorem Session.Kept.grow_loses [PublicKeys] {s s' : Session} (h : s.Kept) (hstep : s.step .compact = .ok s')
    {pending : ℕ} (hneed : s.store.cap * MAX_LOAD_NUM < (s.store.count + pending) * MAX_LOAD_DEN) :
    ∃ ops, s'.store.grow_ops pending = .ok ops ∧ ∃ disk, Leaves ops s'.store.closed disk ∧
      ¬s'.store.Recovers disk := by
  obtain ⟨compacted, hc, rfl⟩ := of_compact hstep
  obtain ⟨store', hcompact, hs, -⟩ := h.1.compact
  rw [hc] at hcompact
  cases hcompact
  obtain ⟨-, hdat, -, -, hcap, hcount⟩ := HashStore.compact_stamps hc
  obtain ⟨ops, hops, hiff⟩ := hs.grow_safe_iff (by rwa [hcap, hcount])
  refine ⟨ops, hops, ?_⟩
  by_contra hsafe
  push Not at hsafe
  rw [hiff.mp hsafe] at hdat
  cases hdat

section

attribute [local instance] no_points

end

end AvilaNode.HashCoins
