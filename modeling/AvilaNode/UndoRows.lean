import AvilaNode.LayerStacks

/-! The undo rows the coins set stores, now and once the commit in flight has been joined. -/

namespace AvilaNode

open Layers

variable {rows : List UndoRow} {undo : BlockUndo} {height : ℕ}

namespace CoinsBackend

variable {dirty : Delta OutPoint Coin} {be be' : CoinsBackend}

theorem undo_at_commit {tip height : ℕ} (h : be.commit dirty rows tip = .ok be') (hle : height ≤ tip) :
    be'.undo_at height = ((insert_undos be.undos rows).lookup height).map Prod.snd := by
  unfold commit commit_inner at h
  split at h
  · cases h
  · cases h
    rw [undo_at, lookup_drop_undos_above, if_neg (by omega)]

theorem commit_floor {tip : ℕ} (h : be.commit dirty rows tip = .ok be') : be'.undo_floor = be.undo_floor := by
  unfold commit commit_inner at h
  split at h <;> cases h
  rfl

end CoinsBackend

def RowsAgree (rows : List UndoRow) (height : ℕ) (undo : BlockUndo) : Prop :=
  ∀ row ∈ rows, row.1 = height → row.2.2 = undo

theorem lookup_insert_undos {undos : Table ℕ (BlockHash × BlockUndo)} (ha : RowsAgree rows height undo)
    (h : (∃ row ∈ rows, row.1 = height) ∨ (undos.lookup height).map Prod.snd = some undo) :
    ((CoinsBackend.insert_undos undos rows).lookup height).map Prod.snd = some undo := by
  unfold CoinsBackend.insert_undos
  induction rows generalizing undos with
  | nil =>
    rcases h with ⟨row, hr, -⟩ | h
    · cases hr
    · exact h
  | cons row rows ih =>
    have hrest : RowsAgree rows height undo := fun r hr => ha r (List.mem_cons_of_mem _ hr)
    rw [List.map_cons, insertAll]
    apply ih hrest
    by_cases hrow : row.1 = height
    · right
      rw [lookup_insert_eq, if_pos hrow.symm, Option.map_some, ha row List.mem_cons_self hrow]
    rcases h with ⟨r, hr, hh⟩ | h
    · rcases List.mem_cons.mp hr with rfl | hr
      · exact absurd hh hrow
      · exact Or.inl ⟨r, hr, hh⟩
    · right
      rw [lookup_insert_eq, if_neg (Ne.symm hrow)]
      exact h

theorem undo_write_epoch (ha : RowsAgree rows height undo) (seq tip : ℕ) (delta : ℤ) (dirty : Delta OutPoint Coin) :
    (write_epoch seq tip delta dirty rows).undo height = some undo ∨
      ((write_epoch seq tip delta dirty rows).undo height = none ∧ ∀ row ∈ rows, row.1 ≠ height) := by
  unfold EpochLayer.undo
  change (rows.find? fun row => row.1 == height).map (fun row => row.2.2) = some undo ∨
    ((rows.find? fun row => row.1 == height).map (fun row => row.2.2) = none ∧ _)
  cases hf : rows.find? fun row => row.1 == height with
  | none =>
    right
    refine ⟨rfl, fun row hr he => ?_⟩
    simpa [he] using List.find?_eq_none.mp hf row hr
  | some row =>
    left
    have hr := List.mem_of_find?_eq_some hf
    have hh := List.find?_some hf
    simp only [beq_iff_eq] at hh
    simp [ha row hr hh]

namespace UtxoSet

def stored_in (runs : List EpochLayer) (backend : Option CoinsBackend) (height : ℕ) : Option BlockUndo :=
  (runs.reverse.findSome? fun l => l.undo height).or (backend.bind fun be => be.undo_at height)

def stored (s : UtxoSet) (height : ℕ) : Option BlockUndo := stored_in s.runs s.backend height

def joined_runs (s : UtxoSet) : List EpochLayer :=
  match s.run_worker.flush_join with
  | some job =>
    match job.result with
    | some (.ok (some epoch)) => s.runs ++ [epoch]
    | _ => s.runs
  | none => s.runs

def joined (s : UtxoSet) (height : ℕ) : Option BlockUndo := stored_in s.joined_runs s.run_worker.backend height

theorem stored_in_append (runs : List EpochLayer) (l : EpochLayer) (backend : Option CoinsBackend) (height : ℕ) :
    stored_in (runs ++ [l]) backend height = (l.undo height).or (stored_in runs backend height) := by
  unfold stored_in
  rw [List.reverse_append, List.reverse_singleton, List.singleton_append, List.findSome?_cons]
  cases l.undo height <;> rfl

structure SameStore (s t : UtxoSet) : Prop where
  backend : t.backend = s.backend
  runs : t.runs = s.runs
  runs_dir : t.runs_dir = s.runs_dir
  flush_join : t.flush_join = s.flush_join

variable {s t : UtxoSet}

theorem SameStore.trans {u : UtxoSet} (h : SameStore s t) (h' : SameStore t u) : SameStore s u :=
  ⟨h'.backend.trans h.backend, h'.runs.trans h.runs, h'.runs_dir.trans h.runs_dir,
    h'.flush_join.trans h.flush_join⟩

inductive SameStores : UtxoSet → UtxoSet → Prop
  | keep {s t : UtxoSet} (same : SameStore s t) (base : t.base = s.base) : SameStores s t
  | based {s t b c : UtxoSet} (same : SameStore s t) (hb : s.base = some b) (hc : t.base = some c)
      (below : SameStores b c) : SameStores s t

theorem SameStores.refl (s : UtxoSet) : SameStores s s := .keep ⟨rfl, rfl, rfl, rfl⟩ rfl

theorem SameStores.same (h : SameStores s t) : SameStore s t := by
  cases h <;> assumption

theorem SameStores.trans {u : UtxoSet} (h : SameStores s t) (h' : SameStores t u) : SameStores s u := by
  induction h generalizing u with
  | keep same base =>
    cases h' with
    | keep same' base' => exact .keep (same.trans same') (base'.trans base)
    | based same' hb hc below => exact .based (same.trans same') (base.symm.trans hb) hc below
  | based same hb hc below ih =>
    cases h' with
    | keep same' base' => exact .based (same.trans same') hb (base'.trans hc) below
    | based same' hb' hc' below' =>
      obtain rfl := Option.some.inj (hc.symm.trans hb')
      exact .based (same.trans same') hb hc' (ih below')

theorem SameStores.base {b : UtxoSet} (h : SameStores s t) (hb : s.base = some b) :
    ∃ c, t.base = some c ∧ SameStores b c := by
  cases h with
  | keep same base => exact ⟨b, base.trans hb, .refl b⟩
  | based same hb' hc below =>
    obtain rfl := Option.some.inj (hb'.symm.trans hb)
    exact ⟨_, hc, below⟩

theorem SameStore.worker (h : SameStore s t) :
    t.run_worker.flush_join = s.run_worker.flush_join ∧ t.run_worker.backend = s.run_worker.backend := by
  unfold run_worker
  rw [h.flush_join, h.backend]
  split
  · exact ⟨h.flush_join, h.backend⟩
  split
  · exact ⟨h.flush_join, h.backend⟩
  split
  · exact ⟨rfl, rfl⟩
  split
  · exact ⟨h.flush_join, h.backend⟩
  · split
    · exact ⟨rfl, rfl⟩
    · exact ⟨rfl, rfl⟩

theorem SameStore.stored (h : SameStore s t) : t.stored = s.stored := by
  funext height
  unfold UtxoSet.stored
  rw [h.runs, h.backend]

theorem SameStore.joined (h : SameStore s t) : t.joined = s.joined := by
  funext height
  unfold UtxoSet.joined joined_runs
  rw [h.worker.1, h.worker.2, h.runs]

theorem joined_idle (h : s.flush_join = none) : s.joined = s.stored := by
  funext height
  simp [joined, joined_runs, stored, UtxoSet.run_worker, h]

theorem run_worker_idem (s : UtxoSet) : s.run_worker.run_worker = s.run_worker := by
  rcases run_worker_cases s with he | ⟨job, -, -, ⟨seq, -, he⟩ | ⟨-, be, be', -, -, he⟩ | ⟨-, e, he⟩⟩
  · rw [he, he]
  all_goals
    rw [he]
    rfl

theorem joined_run_worker (s : UtxoSet) : s.run_worker.joined = s.joined := by
  funext height
  unfold joined joined_runs
  rw [run_worker_idem, (run_worker_same s).runs]

theorem stored_run_worker (s : UtxoSet) (height : ℕ) :
    s.run_worker.stored height = s.stored height ∨ s.run_worker.stored height = s.joined height := by
  rcases run_worker_cases s with he | ⟨job, hj, -, ⟨seq, -, he⟩ | ⟨hep, be, be', -, -, he⟩ | ⟨-, e, he⟩⟩
  · left
    rw [he]
  · left
    rw [he]
    rfl
  · right
    unfold joined joined_runs
    rw [he]
    rfl
  · left
    rw [he]
    rfl

variable [Platform]

theorem Ok.stored_join (h : Ok s) (hj : s.join_flush = (.ok (), t)) : t.stored = s.joined := by
  funext height
  have same := run_worker_same s
  rcases join_flush_cases hj with ⟨hn, rfl⟩ | ⟨job, hwj, hl⟩ | ⟨job, layer, hwj, hl, ⟨epoch, hr, rfl⟩ | ⟨hr, ht⟩⟩
  · have hidle : t.flush_join = none := (h.join_flush hj).idle
    rw [joined_idle hidle]
  · have := h.run_worker.1.layers.job_layer
    rw [hwj, same.flushing, hl] at this
    cases this
  · unfold joined joined_runs
    rw [hwj]
    dsimp only
    rw [hr, ← same.runs]
    rfl
  · obtain ⟨clean, hclean⟩ := promote_warm_eq
      { s.run_worker with
        flush_join := none, flushing := none
        flat := s.run_worker.flat.map fun f => applyDelta f layer.snap } layer.warm
    rw [hclean] at ht
    unfold joined joined_runs
    rw [hwj]
    dsimp only
    rw [hr, ← same.runs, ht]
    rfl

theorem Ok.joined_flush (h : Ok s) (hidle : s.flush_join = none) {be : CoinsBackend} (hbe : s.backend = some be)
    {tip : ℕ} (hf : s.flush_to_backend_owned rows tip = (.ok (), t))
    (hfloor : be.ensure_tip_respects_floor (some tip) = .ok ()) (hle : height ≤ tip) (ha : RowsAgree rows height undo)
    (hrow : (∃ row ∈ rows, row.1 = height) ∨ s.stored height = some undo) :
    t.joined height = some undo := by
  have hjoin : s.join_flush = (.ok (), s) := by
    unfold UtxoSet.join_flush UtxoSet.run_worker
    rw [hidle]
    rw [hidle]
  unfold UtxoSet.flush_to_backend_owned at hf
  rw [hjoin] at hf
  simp only [hbe, Option.isNone_some, Bool.false_eq_true, if_false, Prod.mk.injEq, true_and] at hf
  obtain ⟨be', hc⟩ := CoinsBackend.commit_ok hfloor s.map rows
  by_cases hdir : s.runs_dir = true
  · have hj : t.joined height = stored_in (s.runs ++ [write_epoch s.runs_seq tip s.live_delta s.map rows])
        s.backend height := by
      rw [← hf]
      simp [UtxoSet.joined, UtxoSet.joined_runs, UtxoSet.run_worker, hdir, hbe]
    rw [hj, stored_in_append]
    rcases undo_write_epoch ha s.runs_seq tip s.live_delta s.map with hu | ⟨hu, hn⟩
    · rw [hu]
      rfl
    · rw [hu]
      rcases hrow with ⟨row, hr, hh⟩ | hs
      · exact absurd hh (hn row hr)
      · exact hs
  · have hruns : s.runs = [] := by
      by_contra hne
      exact hdir (h.layers.runs_dir_of hne)
    have hj : t.joined height = be'.undo_at height := by
      rw [← hf]
      simp [UtxoSet.joined, UtxoSet.joined_runs, UtxoSet.run_worker, hdir, hc, hruns, stored_in]
    rw [hj, CoinsBackend.undo_at_commit hc hle]
    apply lookup_insert_undos ha
    rcases hrow with hr | hs
    · exact Or.inl hr
    · right
      rw [stored, stored_in, hruns, hbe] at hs
      exact hs

end UtxoSet

end AvilaNode
