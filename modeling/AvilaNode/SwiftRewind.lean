import AvilaNode.SwiftUndo

/-! Every run of the live index: its counters, its journal, what a rewind gives back and which blocks it retains. -/

namespace AvilaNode

open ByteStrings CoinCodec Layers BeforeImages

namespace SwiftLive

structure Entry where
  before : View
  retained : Option (List UInt8)

inductive Call where
  | initialize_stump_snapshot (snapshot : List UInt8)
  | apply_block (a : Application)
  | rewind_one (expected_tip : BlockHash)
  | mark_complete (audit_snapshot : List UInt8)
  | reopen

section

variable [PublicKeys] [Platform] (sha256 : List UInt8 → Hash256)

inductive Step : List Entry → SwiftLiveIndex → Call → List Entry → SwiftLiveIndex → Prop
  | initialize_stump_snapshot {branch self self' snapshot}
      (h : SwiftLiveIndex.initialize_stump_snapshot self snapshot = (.ok (), self')) :
      Step branch self (.initialize_stump_snapshot snapshot) branch self'
  | apply_block {branch self self' a row} (hrow : encode_retained sha256 a.previous_hash a.full_block = .ok row)
      (h : SwiftLiveIndex.apply_block_inner sha256 self a = (.ok (), self')) :
      Step branch self (.apply_block a) (⟨self.view, row⟩ :: branch) self'
  | rewind_one {branch self self' e tip previous}
      (h : SwiftLiveIndex.rewind_one sha256 self tip = (.ok previous, self')) :
      Step (e :: branch) self (.rewind_one tip) branch self'
  | mark_complete {branch self self' snapshot} (h : SwiftLiveIndex.mark_complete self snapshot = (.ok (), self')) :
      Step branch self (.mark_complete snapshot) branch self'
  | reopen {branch self} : Step branch self .reopen branch self.reopened

inductive Reach (P : Call → Prop) (binding : SwiftLiveBinding) (limits : SwiftLiveLimits) :
    List Entry → SwiftLiveIndex → Prop
  | create {self} (h : create binding limits = .ok self) : Reach P binding limits [] self
  | step {branch self call branch' self'} (h : Reach P binding limits branch self) (hp : P call)
      (hs : Step sha256 branch self call branch' self') : Reach P binding limits branch' self'

def Call.Fits : Call → Prop
  | .initialize_stump_snapshot snapshot => snapshot ≠ []
  | .apply_block a => a.Fits
  | _ => True

def Linked (undo : ℕ → Option (List UInt8)) (floor : ℕ) : View → List Entry → Prop
  | _, [] => True
  | v, e :: branch => e.before.height + 1 = v.height ∧ e.before.Sound ∧
      (floor < v.height → ∃ journal, undo v.height = some journal ∧ Restores sha256 journal v e.before) ∧
      Linked undo floor e.before branch

structure Upheld (binding : SwiftLiveBinding) (limits : SwiftLiveLimits) (branch : List Entry)
    (index : SwiftLiveIndex) :
    Prop where
  bound : index.binding = binding
  limited : index.limits = limits
  depth : 1 ≤ limits.max_reorg_depth
  metadata : index.db.metadata = (binding, limits, index.state)
  view : index.view.Sound
  counted : Counted index.db.coins index.db.survivors index.state
  undo_bytes : index.state.undo_bytes = total record_bytes index.db.undo + total record_bytes index.db.block_undo
  start_le : binding.start_height ≤ index.state.undo_floor
  floor_le : index.state.undo_floor ≤ index.state.height
  height_le : index.state.height ≤ binding.target_height
  base : binding.start_height + branch.length = index.state.height
  journals : ∀ h, (index.db.undo.lookup h).isSome = true ↔ index.state.undo_floor < h ∧ h ≤ index.state.height
  linked : Linked sha256 index.db.undo.lookup index.state.undo_floor index.view branch
  retained : ∀ h row, index.db.block_undo.lookup h = some row →
    index.state.height < h + DEFAULT_REORG_DEPTH ∧ ∃ e ∈ branch, e.before.height + 1 = h ∧ e.retained = some row
  window : ∀ e ∈ branch, binding.target_height < e.before.height + 1 + DEFAULT_REORG_DEPTH →
    index.db.block_undo.lookup (e.before.height + 1) = e.retained

variable {sha256} {binding : SwiftLiveBinding} {limits : SwiftLiveLimits} {branch : List Entry}
  {self self' : SwiftLiveIndex}
  {P : Call → Prop}

variable {floor : ℕ} {v : View} {e : Entry}

omit [Platform] in
theorem Linked.congr {undo undo' : ℕ → Option (List UInt8)} {floor' : ℕ} (h : Linked sha256 undo floor v branch)
    (hfloor : floor ≤ floor') (hundo : ∀ j, floor' < j → j ≤ v.height → undo' j = undo j) :
    Linked sha256 undo' floor' v branch := by
  induction branch generalizing v with
  | nil => trivial
  | cons e branch ih =>
    obtain ⟨hheight, hsound, hjournal, hrest⟩ := h
    refine ⟨hheight, hsound, fun hlt => ?_, ih hrest fun j hj hle => hundo j hj (by omega)⟩
    rw [hundo _ hlt le_rfl]
    exact hjournal (hfloor.trans_lt hlt)

variable {undo : ℕ → Option (List UInt8)}

omit [Platform] in
theorem Linked.below (h : Linked sha256 undo floor v branch) (he : e ∈ branch) :
    e.before.height + 1 ≤ v.height := by
  induction branch generalizing v with
  | nil => cases he
  | cons e' branch ih =>
    obtain ⟨hheight, -, -, hrest⟩ := h
    rcases List.mem_cons.mp he with rfl | he
    · exact hheight.le
    · have := ih hrest he
      omega

omit [Platform] in
theorem Linked.above (h : Linked sha256 undo floor v branch) (he : e ∈ branch) :
    v.height ≤ e.before.height + branch.length := by
  induction branch generalizing v with
  | nil => cases he
  | cons e' branch ih =>
    obtain ⟨hheight, -, -, hrest⟩ := h
    rw [List.length_cons]
    rcases List.mem_cons.mp he with rfl | he
    · omega
    · have := ih hrest he
      omega

omit [Platform] in
theorem Linked.exists_entry (h : Linked sha256 undo floor v branch) {j : ℕ} (hlow : v.height < j + branch.length)
    (hhigh : j ≤ v.height) :
    ∃ e ∈ branch, e.before.height + 1 = j := by
  induction branch generalizing v with
  | nil =>
    rw [List.length_nil] at hlow
    omega
  | cons e branch ih =>
    obtain ⟨hheight, -, -, hrest⟩ := h
    rw [List.length_cons] at hlow
    by_cases hj : j = v.height
    · exact ⟨e, List.mem_cons_self, by omega⟩
    · obtain ⟨e', he', hj'⟩ := ih hrest (by omega) (by omega)
      exact ⟨e', List.mem_cons_of_mem _ he', hj'⟩

omit [Platform] in
theorem Upheld.above (hu : Upheld sha256 binding limits branch self) (he : e ∈ branch) :
    binding.start_height ≤ e.before.height := by
  have hle := hu.linked.above he
  have hbase := hu.base
  change self.state.height ≤ _ at hle
  omega

omit [Platform] in
theorem Upheld.create (h : SwiftLive.create binding limits = .ok self) : Upheld sha256 binding limits [] self := by
  obtain ⟨⟨⟩, hvalid, h⟩ := Mempool.except_bind_ok h
  cases h
  have hdepth : limits.max_reorg_depth ≠ 0 := by
    unfold validate reject at hvalid
    split at hvalid
    · cases hvalid
    · next hn => tauto
  have hle : binding.start_height ≤ binding.target_height := by
    unfold validate reject at hvalid
    split at hvalid
    · cases hvalid
    · next hn =>
      rw [not_or] at hn
      exact (not_le.mp hn.1).le
  refine ⟨rfl, rfl, by omega, rfl, ?_, ⟨rfl, rfl, rfl, rfl⟩, rfl, le_rfl, le_rfl, hle, rfl, ?_, trivial, ?_, ?_⟩
  · constructor
    · intro key v hv
      cases hv
    · intro key v hv
      cases hv
    · intro snapshot hs
      cases hs
    · intro snapshot hs
      cases hs
    · exact fun _ _ => rfl
  · intro h
    constructor
    · intro hsome
      cases hsome
    · rintro ⟨hlt, hle⟩
      exact absurd (hlt.trans_le hle) (lt_irrefl _)
  · intro h row hrow
    cases hrow
  · intro e he
    cases he

omit [PublicKeys] [Platform] in
theorem committed_ok {α : Type} {x : Except SwiftLiveError (α × Database × State)} {v : α}
    (h : self.committed x = (.ok v, self')) : ∃ db next, x = .ok (v, db, next) ∧ self' = self.after db next := by
  unfold SwiftLiveIndex.committed at h
  split at h
  · cases h
    exact ⟨_, _, rfl, rfl⟩
  · cases h

omit [PublicKeys] [Platform] in
theorem committed_error {α : Type} {x : Except SwiftLiveError (α × Database × State)} {e : SwiftLiveError}
    (h : self.committed x = (.error e, self')) : self' = self := by
  unfold SwiftLiveIndex.committed at h
  split at h
  · cases h
  · cases h
    rfl

variable {a : Application}

theorem Upheld.apply_block {row : Option (List UInt8)} {db : Database} {next : State}
    (hu : Upheld sha256 binding limits branch self) (hfits : a.Fits)
    (hrow : encode_retained sha256 a.previous_hash a.full_block = .ok row)
    (h : SwiftLiveIndex.checked_application sha256 self a = .ok ((), db, next)) :
    Upheld sha256 binding limits (⟨self.view, row⟩ :: branch) (self.after db next) := by
  obtain ⟨journal, ha⟩ := applied hu.view hu.counted hfits hrow h
  have hheight := ha.height
  have htip : next.height = self.state.height + 1 := ha.tip.1.trans hheight
  have hfloor := ha.floor
  have hstart := hu.start_le
  have hle := hu.floor_le
  have hdepth := hu.depth
  have htarget := ha.target
  rw [hu.bound] at htarget
  rw [hu.limited] at hfloor
  have hview : (self.after db next).view.height = self.state.height + 1 := htip
  have hbelow : ∀ e ∈ branch, e.before.height + 1 ≤ self.state.height := fun e he => hu.linked.below he
  have hnone : self.db.block_undo.lookup a.height = none := by
    cases hold : self.db.block_undo.lookup a.height with
    | none => rfl
    | some old =>
      obtain ⟨-, e, he, hat, -⟩ := hu.retained _ _ hold
      have hlow := hbelow e he
      omega
  refine ⟨hu.bound, hu.limited, hdepth, ?_, ha.view, ha.counted, ?_, ?_, ?_, ?_, ?_, ?_, ?_, ?_, ?_⟩
  · change db.metadata = _
    rw [ha.metadata, hu.bound, hu.limited]
    rfl
  · have hbytes := ha.undo_bytes
    have hbefore := hu.undo_bytes
    change next.undo_bytes = total record_bytes db.undo + total record_bytes db.block_undo
    omega
  · change _ ≤ next.undo_floor
    omega
  · change next.undo_floor ≤ next.height
    omega
  · change next.height ≤ _
    omega
  · change binding.start_height + (branch.length + 1) = next.height
    have hbase := hu.base
    omega
  · intro j
    change (db.undo.lookup j).isSome = true ↔ next.undo_floor < j ∧ j ≤ next.height
    rw [ha.undo]
    split
    · next hj =>
      constructor
      · intro hsome
        cases hsome
      · omega
    · next hj =>
      split
      · next heq => exact ⟨fun _ => by omega, fun _ => rfl⟩
      · next hne =>
        rw [hu.journals j]
        omega
  · refine ⟨hview.symm, hu.view, fun _ => ⟨journal, ?_, ha.restores⟩, ?_⟩
    · change db.undo.lookup _ = some journal
      rw [ha.undo, if_neg (by omega), if_pos (hview.trans hheight.symm)]
    · refine hu.linked.congr (by change _ ≤ next.undo_floor; omega) fun j hj hle => ?_
      change next.undo_floor < j at hj
      change j ≤ self.state.height at hle
      change db.undo.lookup j = _
      rw [ha.undo, if_neg (by omega), if_neg (by omega)]
  · intro j stored hj
    change db.block_undo.lookup j = some stored at hj
    change next.height < _ ∧ _
    rw [ha.block_undo] at hj
    split at hj
    · cases hj
    · next hkeep =>
      split at hj
      · next heq =>
        rw [hnone, Option.or_none] at hj
        exact ⟨by unfold DEFAULT_REORG_DEPTH; omega, _, List.mem_cons_self,
          by change self.state.height + 1 = j; omega, hj⟩
      · next hne =>
        obtain ⟨hwindow, e, he, hat, hstored⟩ := hu.retained _ _ hj
        have hlow := hbelow e he
        have habove : binding.start_height ≤ e.before.height := hu.above he
        rw [hu.bound] at hkeep
        refine ⟨?_, e, List.mem_cons_of_mem _ he, hat, hstored⟩
        omega
  · intro e he hwindow
    change db.block_undo.lookup (e.before.height + 1) = e.retained
    rw [ha.block_undo, if_neg (by omega)]
    rcases List.mem_cons.mp he with rfl | he
    · rw [if_pos (by change self.state.height + 1 = _; omega), hnone, Option.or_none]
    · have hlow := hbelow e he
      rw [if_neg (by omega)]
      exact hu.window e he hwindow

variable {snapshot : List UInt8}

section

variable (hu : Upheld sha256 binding limits branch self)
include hu

omit [Platform] in
theorem Upheld.initialize_stump_snapshot (hne : snapshot ≠ [])
    (h : SwiftLiveIndex.initialize_stump_snapshot self snapshot = (.ok (), self')) :
    Upheld sha256 binding limits branch self' := by
  obtain ⟨db, next, hrun, rfl⟩ := committed_ok h
  obtain ⟨hstart, hrun⟩ := reject_bind_ok.mp hrun
  obtain ⟨-, hrun⟩ := reject_bind_ok.mp hrun
  cases hrun
  rw [not_or, not_not, not_lt, hu.bound] at hstart
  have hnil : branch = [] := List.eq_nil_of_length_eq_zero (by have := hu.base; omega)
  subst hnil
  refine ⟨hu.bound, hu.limited, hu.depth, hu.metadata, ?_, hu.counted, hu.undo_bytes, hu.start_le, hu.floor_le,
    hu.height_le,
    hu.base, hu.journals, trivial, hu.retained, hu.window⟩
  refine ⟨hu.view.live, hu.view.stored, hu.view.audit, fun s hs => ?_, hu.view.tx_meta⟩
  cases hs
  exact ⟨hne, hstart.2⟩

omit [Platform] in
theorem Upheld.mark_complete (h : SwiftLiveIndex.mark_complete self snapshot = (.ok (), self')) :
      Upheld sha256 binding limits branch self' := by
  obtain ⟨db, next, hrun, rfl⟩ := committed_ok h
  obtain ⟨hlen, hrun⟩ := reject_bind_ok.mp hrun
  cases hrun
  rw [not_or, not_or, not_not, not_not, not_not] at hlen
  have hlinked := hu.linked
  refine ⟨hu.bound, hu.limited, hu.depth, by rw [← hu.bound, ← hu.limited]; rfl, ?_,
    ⟨hu.counted.live_entries, hu.counted.live_bytes, hu.counted.survivor_entries, hu.counted.survivor_bytes⟩,
    hu.undo_bytes, hu.start_le, hu.floor_le, hu.height_le, hu.base, hu.journals, ?_, hu.retained, hu.window⟩
  · refine ⟨hu.view.live, hu.view.stored, fun s hs => ?_, hu.view.stump, hu.view.tx_meta⟩
    cases hs
    exact hlen.2.2
  -- a journal says nothing of the audit state its own block left
  · cases branch with
    | nil => trivial
    | cons e branch =>
      obtain ⟨hheight, hsound, hjournal, hrest⟩ := hlinked
      exact ⟨hheight, hsound, hjournal, hrest⟩

omit [Platform] in
theorem Upheld.reopened :
    Upheld sha256 binding limits branch self.reopened := by
  have hsame : self.reopened = self := by
    unfold SwiftLiveIndex.reopened
    rw [hu.metadata]
  rw [hsame]
  exact hu

end

omit [Platform] in
theorem Upheld.rewinds (hu : Upheld sha256 binding limits (e :: branch) self)
    (hfloor : self.state.undo_floor < self.state.height) :
    ∃ self', SwiftLiveIndex.rewind_one sha256 self self.state.hash = (.ok e.before.hash, self') ∧
      self'.view = e.before ∧ Upheld sha256 binding limits branch self' := by
  obtain ⟨hheight, hsound, hjournal, hrest⟩ := hu.linked
  change _ = self.state.height at hheight
  obtain ⟨journal, hundo, hrestores⟩ := hjournal hfloor
  obtain ⟨db, next, hrun, hr⟩ :=
    SwiftLive.rewinds hu.view.live hu.counted hu.undo_bytes hfloor hundo hrestores hheight
  have hview := hr.view
  have htip : next.height = e.before.height := congrArg View.height hview
  have hbase := hu.base
  have hfloor' := hr.floor
  rw [List.length_cons] at hbase
  refine ⟨self.after db next, ?_, hview, hu.bound, hu.limited, hu.depth, ?_, hview ▸ hsound, hr.counted, ?_, ?_, ?_,
    ?_, ?_,
    ?_, ?_, ?_, ?_⟩
  · unfold SwiftLiveIndex.rewind_one
    rw [hrun]
    rfl
  · change db.metadata = _
    rw [hr.metadata, hu.bound, hu.limited]
    rfl
  · have hbytes := hr.undo_bytes
    have hbefore := hu.undo_bytes
    change next.undo_bytes = total record_bytes db.undo + total record_bytes db.block_undo
    omega
  · change _ ≤ next.undo_floor
    rw [hfloor']
    exact hu.start_le
  · change next.undo_floor ≤ next.height
    omega
  · change next.height ≤ _
    have := hu.height_le
    omega
  · change _ = next.height
    omega
  · intro j
    change (db.undo.lookup j).isSome = true ↔ next.undo_floor < j ∧ j ≤ next.height
    rw [hr.undo]
    split
    · constructor
      · intro hsome
        cases hsome
      · omega
    · rw [hu.journals j]
      omega
  · rw [hview]
    refine hrest.congr (by change _ ≤ next.undo_floor; omega) fun j hj hle => ?_
    change db.undo.lookup j = _
    rw [hr.undo, if_neg (by omega)]
  · intro j stored hj
    change db.block_undo.lookup j = some stored at hj
    change next.height < _ ∧ _
    rw [hr.block_undo] at hj
    split at hj
    · cases hj
    · next hne =>
      obtain ⟨hwindow, e', he', hat, hstored⟩ := hu.retained _ _ hj
      refine ⟨by omega, e', ?_, hat, hstored⟩
      rcases List.mem_cons.mp he' with rfl | he'
      · exact absurd (hat.symm.trans hheight) hne
      · exact he'
  · intro e' he' hwindow
    have hlow := hrest.below he'
    change db.block_undo.lookup _ = _
    rw [hr.block_undo, if_neg (by omega)]
    exact hu.window e' (List.mem_cons_of_mem _ he') hwindow

omit [Platform] in
theorem rewind_one_above {tip previous : BlockHash}
    (h : SwiftLiveIndex.rewind_one sha256 self tip = (.ok previous, self')) :
    self.state.undo_floor < self.state.height ∧ tip = self.state.hash := by
  obtain ⟨db, next, hrun, -⟩ := committed_ok h
  obtain ⟨hcheck, -⟩ := reject_bind_ok.mp hrun
  rw [not_or, not_le, not_not] at hcheck
  exact ⟨hcheck.1, hcheck.2.symm⟩

theorem Upheld.step {call : Call} {branch' : List Entry} (hu : Upheld sha256 binding limits branch self)
    (hfits : call.Fits) (hs : Step sha256 branch self call branch' self') :
    Upheld sha256 binding limits branch' self' := by
  cases hs with
  | initialize_stump_snapshot h => exact hu.initialize_stump_snapshot hfits h
  | apply_block hrow h =>
    obtain ⟨db, next, hrun, rfl⟩ := committed_ok h
    exact hu.apply_block hfits hrow hrun
  | rewind_one h =>
    obtain ⟨hfloor, rfl⟩ := rewind_one_above h
    obtain ⟨self'', hrun, -, hu'⟩ := hu.rewinds hfloor
    rw [h] at hrun
    cases hrun
    exact hu'
  | mark_complete h => exact hu.mark_complete h
  | reopen => exact hu.reopened

theorem Reach.upheld (run : Reach sha256 Call.Fits binding limits branch self) :
    Upheld sha256 binding limits branch self := by
  induction run with
  | create h => exact .create h
  | step h hp hs ih => exact ih.step hp hs

omit [Platform] in
theorem Upheld.retained_iff (hu : Upheld sha256 binding limits branch self)
    (htarget : self.state.height = binding.target_height) (h : ℕ) (row : List UInt8) :
    self.db.block_undo.lookup h = some row ↔ binding.target_height < h + DEFAULT_REORG_DEPTH ∧
      ∃ e ∈ branch, e.before.height + 1 = h ∧ e.retained = some row := by
  constructor
  · intro hrow
    obtain ⟨hwindow, hentry⟩ := hu.retained h row hrow
    exact ⟨htarget ▸ hwindow, hentry⟩
  · rintro ⟨hwindow, e, he, rfl, hrow⟩
    rw [hu.window e he hwindow, hrow]

omit [Platform] in
theorem Upheld.retained_heights (hu : Upheld sha256 binding limits branch self)
    (htarget : self.state.height = binding.target_height) (hfull : ∀ e ∈ branch, e.retained.isSome = true) (h : ℕ) :
    (self.db.block_undo.lookup h).isSome = true ↔
      binding.start_height < h ∧ h ≤ binding.target_height ∧ binding.target_height < h + DEFAULT_REORG_DEPTH := by
  rw [Option.isSome_iff_exists]
  constructor
  · rintro ⟨row, hrow⟩
    obtain ⟨hwindow, e, he, rfl, -⟩ := (hu.retained_iff htarget h row).mp hrow
    have hlow := hu.linked.below he
    have hhigh := hu.above he
    change _ ≤ self.state.height at hlow
    exact ⟨by omega, by omega, hwindow⟩
  · rintro ⟨hlow, hhigh, hwindow⟩
    have hbase := hu.base
    obtain ⟨e, he, hat⟩ := hu.linked.exists_entry (j := h) (by change self.state.height < _; omega)
      (by change _ ≤ self.state.height; omega)
    obtain ⟨row, hrow⟩ := Option.isSome_iff_exists.mp (hfull e he)
    exact ⟨row, (hu.retained_iff htarget h row).mpr ⟨hwindow, e, he, hat, hrow⟩⟩

theorem retained_row {x : Unit × Database × State} (h : SwiftLiveIndex.checked_application sha256 self a = .ok x) :
    ∃ row, encode_retained sha256 a.previous_hash a.full_block = .ok row := by
  obtain ⟨-, h⟩ := reject_bind_ok.mp h
  obtain ⟨-, h⟩ := reject_bind_ok.mp h
  obtain ⟨-, h⟩ := reject_bind_ok.mp h
  obtain ⟨-, h⟩ := reject_bind_ok.mp h
  obtain ⟨-, h⟩ := reject_bind_ok.mp h
  obtain ⟨row, hrow, -⟩ := Mempool.except_bind_ok h
  exact ⟨row, hrow⟩

theorem live_index_exact (run : Reach sha256 Call.Fits binding limits branch self) :
    Counted self.db.coins self.db.survivors self.state ∧
    self.state.undo_bytes = total record_bytes self.db.undo + total record_bytes self.db.block_undo ∧
    (∀ h, (self.db.undo.lookup h).isSome = true ↔ self.state.undo_floor < h ∧ h ≤ self.state.height) ∧
    (∀ a self', a.Fits → SwiftLiveIndex.apply_block_inner sha256 self a = (.ok (), self') →
      ∃ self'', SwiftLiveIndex.rewind_one sha256 self' a.block_hash = (.ok a.previous_hash, self'') ∧
        self''.view = self.view) ∧
    (self.state.undo_floor < self.state.height → ∃ e rest self', branch = e :: rest ∧
      SwiftLiveIndex.rewind_one sha256 self self.state.hash = (.ok e.before.hash, self') ∧ self'.view = e.before) ∧
    (∀ a e self', SwiftLiveIndex.apply_block_inner sha256 self a = (.error e, self') → self' = self) ∧
    (∀ tip e self', SwiftLiveIndex.rewind_one sha256 self tip = (.error e, self') → self' = self) ∧
    (self.state.height = binding.target_height →
      (∀ h row, self.db.block_undo.lookup h = some row ↔ binding.target_height < h + DEFAULT_REORG_DEPTH ∧
        ∃ e ∈ branch, e.before.height + 1 = h ∧ e.retained = some row) ∧
      ((∀ e ∈ branch, e.retained.isSome = true) → ∀ h, (self.db.block_undo.lookup h).isSome = true ↔
        binding.start_height < h ∧ h ≤ binding.target_height ∧ binding.target_height < h + DEFAULT_REORG_DEPTH)) := by
  have hu := run.upheld
  refine ⟨hu.counted, hu.undo_bytes, hu.journals, ?_, ?_, fun _ _ _ h => committed_error h,
    fun _ _ _ h => committed_error h, fun htarget => ⟨hu.retained_iff htarget, hu.retained_heights htarget⟩⟩
  · intro a self' hfits h
    obtain ⟨db, next, hrun, rfl⟩ := committed_ok h
    obtain ⟨row, hrow⟩ := retained_row hrun
    have hu' := hu.apply_block hfits hrow hrun
    obtain ⟨journal, ha⟩ := applied hu.view hu.counted hfits hrow hrun
    have hheight := ha.height
    have hfloor := ha.floor
    have hdepth := hu.depth
    have hle := hu.floor_le
    rw [hu.limited] at hfloor
    have htip : next.height = a.height ∧ next.hash = a.block_hash := ha.tip
    obtain ⟨self'', hback, hview, -⟩ := hu'.rewinds (by change next.undo_floor < next.height; omega)
    change SwiftLiveIndex.rewind_one sha256 _ next.hash = (.ok self.state.hash, self'') at hback
    rw [htip.2, ← ha.previous] at hback
    exact ⟨self'', hback, hview⟩
  · intro hfloor
    have hbase := hu.base
    have hstart := hu.start_le
    cases branch with
    | nil =>
      rw [List.length_nil] at hbase
      omega
    | cons e rest =>
      obtain ⟨self', hback, hview, -⟩ := hu.rewinds hfloor
      exact ⟨e, rest, self', rfl, hback, hview⟩

end

def sample_binding : SwiftLiveBinding := ⟨.Regtest, 0, 0, 2, 2, 0, by decide⟩

def sample_limits : SwiftLiveLimits := ⟨1, 41, 1000000000000, 1000000000000, 1000000000000, 1, 2, 1⟩

def sample_index : SwiftLiveIndex :=
  ⟨⟨∅, (sample_binding, sample_limits, State.start sample_binding), ∅, none, none, ∅, ∅, ∅⟩, sample_binding,
    sample_limits, State.start sample_binding⟩

theorem create_sample : create sample_binding sample_limits = .ok sample_index := rfl

def sample_application : Application :=
  ⟨1, 0, 1, [.Create ⟨1, 0⟩ 1 false false, .Spend ⟨1, 0⟩ 1 false], none, none, none, none,
    [(⟨1, 1⟩, some sample_coin)]⟩

section

attribute [local instance] RunFile.PublicKeys.none Platform.sample

theorem live_index_exact_sample : ∃ self',
    SwiftLiveIndex.apply_block_inner (fun _ => 0) sample_index sample_application =
      (.ok (), self') ∧
    ∃ self'', SwiftLiveIndex.rewind_one (fun _ => 0) self' 1 = (.ok 0, self'') ∧ self''.view = sample_index.view := by
  have hrun : (SwiftLiveIndex.apply_block_inner (fun _ => 0) sample_index sample_application).1 =
    .ok () := by decide +kernel
  obtain ⟨applied, happlied⟩ : ∃ x,
    SwiftLiveIndex.apply_block_inner (fun _ => 0) sample_index sample_application = x := ⟨_, rfl⟩
  rw [happlied] at hrun
  obtain ⟨outcome, self'⟩ := applied
  cases hrun
  refine ⟨_, happlied, (live_index_exact (.create create_sample)).2.2.2.1 sample_application _ ⟨?_, ?_, ?_⟩ happlied⟩
  · exact (List.dedup_sublist _).length_le.trans (by decide)
  · exact fun h => nomatch h
  · intro update hupdate coin hcoin
    cases List.mem_singleton.mp hupdate
    cases hcoin
    unfold CodeFits
    decide

end

end SwiftLive

end AvilaNode
