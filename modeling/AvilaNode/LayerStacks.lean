import AvilaNode.Flush
import AvilaNode.Transitions

/-! The layered sets a node can build, and the operations it runs on them. -/

namespace AvilaNode

open Layers

inductive CoinOp where
  | put (op : OutPoint) (entry : Option Coin)
  | spend_coin (op : OutPoint)
  | remove_entry (op : OutPoint)
  | read (op : OutPoint)
  | flush_to_backend (undos : List UndoRow) (tip : ℕ)
  | flush_to_backend_owned (undos : List UndoRow) (tip : ℕ)
  | commit_lands
  | join_flush
  | flush_partial_to_backend

namespace UtxoSet

def snapshot_get (s : UtxoSet) (op : OutPoint) : Option Coin := s.snapshot.bind fun run => run.lookup op

theorem rebuild_flat_eq (s : UtxoSet) : ∃ f, s.rebuild_flat = { s with flat := some f } ∧
    ∀ op, f.lookup op = (s.backend.bind fun be => be.get op).or (s.snapshot_get op) := by
  refine ⟨_, rfl, fun op => ?_⟩
  cases hb : s.backend <;> cases hs : s.snapshot <;>
    simp [snapshot_get, hs, lookup_insertAll_toList, CoinsBackend.get]

theorem rebuild_flat_flat (s : UtxoSet) : UtxoSet.rebuild_flat { s with flat := none } = s.rebuild_flat := rfl

theorem refresh_flat_base (s : UtxoSet) : s.refresh_flat.base = s.base := by
  unfold UtxoSet.refresh_flat
  split <;> rfl

variable [Platform]

def apply (s : UtxoSet) : CoinOp → Except IoError Unit × UtxoSet
  | .put op entry => (.ok (), s.put op entry)
  | .spend_coin op => (.ok (), (s.spend_coin op).2)
  | .remove_entry op => (.ok (), s.remove_entry op)
  | .read op => (.ok (), s.note_read op none)
  | .flush_to_backend undos tip => s.flush_to_backend undos tip
  | .flush_to_backend_owned undos tip => s.flush_to_backend_owned undos tip
  | .commit_lands => (.ok (), s.run_worker)
  | .join_flush => s.join_flush
  | .flush_partial_to_backend => s.flush_partial_to_backend

/-- The sets reached by the constructors, the attach and enable calls and the operations. Layers are
attached to the real leaf set, with no commit in flight, and hold no coin the set lists as born. -/
inductive Reachable : UtxoSet → Prop
  | new : Reachable new
  | attach_backend {s : UtxoSet} (be : CoinsBackend) : Reachable s → s.base = none → s.flush_join = none →
      (∀ op ∈ s.born, be.get op = none ∧ s.snapshot_get op = none) → Reachable (s.attach_backend be)
  | attach_snapshot {s : UtxoSet} (run : Table OutPoint Coin) : Reachable s → s.base = none →
      (∀ op ∈ s.born, run.lookup op = none) → Reachable (s.attach_snapshot run)
  | enable_runs {s : UtxoSet} (found : List EpochLayer) : Reachable s → s.base = none → s.flush_join = none →
      s.runs = [] → (∀ l ∈ found, l.Wf) → (∀ op ∈ s.born, ∀ l ∈ found, ∀ c, (op, c) ∉ l.run.records) →
      Reachable (s.enable_runs found)
  | enable_flat {s : UtxoSet} : Reachable s → s.base = none → (∀ op ∈ s.born, s.snapshot_get op = none) →
      Reachable s.enable_flat
  | step {s t : UtxoSet} (o : CoinOp) : Reachable s → s.apply o = (.ok (), t) → Reachable t
  | prefetched_read {s : UtxoSet} (op : OutPoint) (p : Option (Delta OutPoint Coin)) : Reachable s →
      s.PrefetchOk p → Reachable (s.note_read op p)
  | overlay {s : UtxoSet} : Reachable s → Reachable s.overlay.1
  | unoverlay {s b : UtxoSet} (left : UtxoSet) (commit : Bool) : Reachable s → s.base = some b →
      Reachable (left.unoverlay s commit)

theorem new_ok : Ok new := .intro new
  { clean_backend := fun op c h => by simp [new] at h
    warm_map := fun op c h => by simp [new] at h
    warm_snap := fun _ h => by cases h
    born_under := fun _ h => by cases h
    flat_backend := fun _ _ _ _ h => by cases h
    overlay_bare := fun _ h => by cases h
    runs_wf := fun _ h => by cases h
    job_layer := rfl
    job_backend := fun h => by cases h
    job_runs := fun _ h => by cases h
    job_commit := fun _ _ h => by cases h
    job_epoch := fun _ _ h => by cases h
    epoch_dir := fun _ _ h => by cases h
    runs_dir_of := fun h => absurd rfl h } fun _ h => by cases h

variable {s : UtxoSet} {op : OutPoint}

theorem overlay_ok (h : Ok s) : Ok s.overlay.1 := .intro _
  { new_ok.layers with
    born_under := fun _ hb => by cases hb
    overlay_bare := fun _ _ => ⟨rfl, rfl, rfl, rfl, rfl⟩ } fun b hb => by cases hb; exact h

theorem get_overlay (h : Ok s) : s.overlay.1.get = s.get := by
  rw [(overlay_ok h).get_eq]
  rfl

theorem Ok.put_all (h : Ok s) (es : List (OutPoint × Option Coin)) : Ok (s.put_all es) := by
  induction es generalizing s with
  | nil => exact h
  | cons e es ih => exact ih (h.put e.1 e.2)

theorem unoverlay_ok {b : UtxoSet} (h : Ok s) (hb : s.base = some b) (left : UtxoSet) (commit : Bool) :
    Ok (left.unoverlay s commit) := by
  unfold UtxoSet.unoverlay
  rw [hb]
  dsimp only
  split
  · exact (h.base hb).put_all _
  · exact h.base hb

theorem under_none_of {s t : UtxoSet} {op : OutPoint} (hf : t.flushing = s.flushing)
    (hu : t.upper op = s.upper op)
    (hc : snap_lookup s.flushing op = none → s.committed op = none → t.committed op = none)
    (h : s.under op = none) : t.under op = none := by
  unfold under at *
  rw [hf, hu]
  cases hs : snap_lookup s.flushing op with
  | some e => simpa [hs] using h
  | none =>
    rw [hs] at h
    cases hup : s.upper op with
    | some hit => simpa [hup] using h
    | none =>
      rw [hup, Option.getD_none] at h
      simpa using hc hs h

variable {be : CoinsBackend}

theorem LayersOk.backend_none (h : LayersOk s) (hb : s.backend = some be) (hsn : snap_lookup s.flushing op = none)
    (hc : s.committed op = none) :
    be.get op = none := by
  cases hf : s.flat with
  | none => simpa [committed, hf, hb] using hc
  | some f =>
    cases hg : be.get op with
    | none => rfl
    | some c =>
      rcases h.flat_backend f be op c hf hb hg with h' | ⟨job, hj, -, hs⟩
      · simp [committed, hf, h'] at hc
      · rw [← snap_lookup_job hj h.job_layer, hsn] at hs
        cases hs

theorem LayersOk.set_committed (h : LayersOk s) (hbase : s.base = none) (backend : Option CoinsBackend)
    (snapshot : Option (Table OutPoint Coin)) (clean : CleanCoinCache)
    (hjob : s.flush_join = none ∨ backend = s.backend)
    (hclean : ∀ op c, clean.get op = some c → s.clean.get op = some c ∧ backend = s.backend)
    (hborn : ∀ op ∈ s.born, snap_lookup s.flushing op = none → s.committed op = none →
      (match backend with | some be => be.get op | none => snapshot.bind fun run => run.lookup op) = none)
    :
    LayersOk { s with backend, snapshot, clean, flat := none } :=
  { h with
    clean_backend := fun op c hc => by
      obtain ⟨hc, hb⟩ := hclean op c hc
      rw [hb]
      exact h.clean_backend op c hc
    born_under := fun op hop => by
      obtain ⟨hm, hu⟩ := h.born_under op hop
      exact ⟨hm, @under_none_of _ s _ op rfl rfl (fun hsn hc => hborn op hop hsn hc) hu⟩
    flat_backend := fun _ _ _ _ hf => by cases hf
    overlay_bare := fun b hb => by
      rw [hbase] at hb
      cases hb
    job_backend := fun hj => by
      rcases hjob with hn | hb
      · rw [hn] at hj
        cases hj
      · rw [hb]
        exact h.job_backend hj
    job_commit := fun job be hj hr hb => by
      rcases hjob with hn | hb'
      · rw [hn] at hj
        cases hj
      · rw [hb'] at hb
        exact h.job_commit job be hj hr hb }

theorem LayersOk.set_flat (h : LayersOk s) (hbase : s.base = none) (hb : ∀ op ∈ s.born, s.snapshot_get op = none) :
    LayersOk s.rebuild_flat := by
  obtain ⟨f, he, hf⟩ := s.rebuild_flat_eq
  rw [he]
  exact
    { h with
      born_under := fun op hop => by
        obtain ⟨hm, hu⟩ := h.born_under op hop
        refine ⟨hm, @under_none_of _ s _ op rfl rfl (fun hsn hc => ?_) hu⟩
        change f.lookup op = none
        rw [hf, hb op hop, Option.or_none]
        cases hbe : s.backend with
        | none => rfl
        | some be => exact h.backend_none hbe hsn hc
      flat_backend := fun f' be op c hf' hbe hg => by
        cases hf'
        left
        rw [hf, hbe]
        simp [hg]
      overlay_bare := fun b hb => by
        rw [hbase] at hb
        cases hb }

theorem LayersOk.refresh_flat (h : LayersOk { s with flat := none }) (hbase : s.base = none)
    (hb : s.flat.isSome → ∀ op ∈ s.born, s.snapshot_get op = none) : LayersOk s.refresh_flat := by
  unfold UtxoSet.refresh_flat
  split
  · rename_i hf
    rw [← rebuild_flat_flat]
    exact h.set_flat hbase (hb hf)
  · rename_i hf
    have he : ({ s with flat := none } : UtxoSet) = s := by
      cases s
      simp_all
    rwa [he] at h

theorem Ok.of_leaf (h : LayersOk s) (hbase : s.base = none) : Ok s :=
  .intro s h fun b hb => by
    rw [hbase] at hb
    cases hb

theorem Ok.attach_backend (h : Ok s) (hbase : s.base = none) (hidle : s.flush_join = none)
    (hb : ∀ op ∈ s.born, be.get op = none ∧ s.snapshot_get op = none) :
    Ok (s.attach_backend be) := by
  refine .of_leaf (LayersOk.refresh_flat ?_ hbase fun _ op hop => (hb op hop).2)
    ((refresh_flat_base _).trans hbase)
  refine h.layers.set_committed hbase (some be) s.snapshot _ (Or.inl hidle) (fun op c hc => ?_)
    fun op hop _ _ => (hb op hop).1
  simp [CleanCoinCache.get] at hc

theorem Ok.attach_snapshot (h : Ok s) (hbase : s.base = none) {run : Table OutPoint Coin}
    (hb : ∀ op ∈ s.born, run.lookup op = none) : Ok (s.attach_snapshot run) := by
  refine .of_leaf (LayersOk.refresh_flat ?_ hbase fun _ => hb) ((refresh_flat_base _).trans hbase)
  refine h.layers.set_committed hbase s.backend (some run) s.clean (Or.inr rfl) (fun op c hc => ⟨hc, rfl⟩)
    fun op hop hsn hc => ?_
  cases hbe : s.backend with
  | none => exact hb op hop
  | some be => exact h.layers.backend_none hbe hsn hc

theorem Ok.enable_flat (h : Ok s) (hbase : s.base = none) (hb : ∀ op ∈ s.born, s.snapshot_get op = none) :
    Ok s.enable_flat :=
  .of_leaf (h.layers.set_flat hbase hb) hbase

theorem probe_runs_mem {runs : List EpochLayer} {hit : Option Coin} (h : probe_runs runs op = some hit) :
    ∃ l ∈ runs, l.probe op = some hit := by
  obtain ⟨l, hl, hp⟩ := List.exists_of_findSome?_eq_some h
  exact ⟨l, List.mem_reverse.mp hl, hp⟩

theorem probe_some_mem {l : EpochLayer} {c : Coin} (h : l.probe op = some (some c)) : (op, c) ∈ l.run.records := by
  unfold EpochLayer.probe at h
  split at h
  · cases h
  split at h
  · rename_i hc
    cases h
    exact SortedRun.get_key_mem hc
  · cases h

theorem Ok.enable_runs (h : Ok s) (hbase : s.base = none) (hidle : s.flush_join = none) (hruns : s.runs = [])
    {found : List EpochLayer} (hwf : ∀ l ∈ found, l.Wf)
    (hb : ∀ op ∈ s.born, ∀ l ∈ found, ∀ c, (op, c) ∉ l.run.records) : Ok (s.enable_runs found) := by
  have hmem : ∀ l, l ∈ (s.enable_runs found).runs → l ∈ found := by
    intro l hl
    simpa [UtxoSet.enable_runs, hruns] using hl
  refine .of_leaf ?_ hbase
  exact
    { h.layers with
      born_under := fun op hop => by
        obtain ⟨hm, hu⟩ := h.layers.born_under op hop
        refine ⟨hm, ?_⟩
        have hs : s.under op = (snap_lookup s.flushing op).getD (s.committed op) := by
          rw [under_eq, upper, hbase, hruns]
          rfl
        rw [hs] at hu
        have ht : (s.enable_runs found).under op =
            (snap_lookup s.flushing op).getD ((probe_runs (s.enable_runs found).runs op).getD (s.committed op)) := by
          rw [under_eq, upper, show (s.enable_runs found).base = none from hbase]
          rfl
        rw [ht]
        cases hsn : snap_lookup s.flushing op with
        | some e => simpa [hsn] using hu
        | none =>
          rw [hsn] at hu
          rw [Option.getD_none] at hu ⊢
          cases hp : probe_runs (s.enable_runs found).runs op with
          | none => exact hu
          | some hit =>
            obtain ⟨l, hl, hpl⟩ := probe_runs_mem hp
            cases hit with
            | none => rfl
            | some c => exact absurd (probe_some_mem hpl) (hb op hop l (hmem l hl) c)
      overlay_bare := fun b hb => by
        rw [show (s.enable_runs found).base = none from hbase] at hb
        cases hb
      runs_wf := fun l hl => hwf l (hmem l hl)
      job_runs := fun job hj => by
        rw [show (s.enable_runs found).flush_join = none from hidle] at hj
        cases hj
      epoch_dir := fun _ _ _ _ => rfl
      runs_dir_of := fun _ => rfl }

theorem Ok.flush_partial_to_backend {t : UtxoSet} (h : Ok s) (hf : s.flush_partial_to_backend = (.ok (), t)) :
    (s.backend = none ∧ t = s) ∨ s.backend.isSome ∧ ∃ j, s.join_flush = (.ok (), j) ∧ Ok t ∧
      ∀ op, t.get op = match s.map.lookup op with
        | some e => (probe_runs j.runs op).getD e
        | none => j.get op := by
  unfold UtxoSet.flush_partial_to_backend at hf
  split at hf
  · rename_i hb
    exact Or.inl ⟨Option.isNone_iff_eq_none.mp hb, (Prod.mk.inj hf).2.symm⟩
  rename_i hb
  have hbs : s.backend.isSome := by simpa [Option.isSome_iff_ne_none] using hb
  split at hf
  · cases hf
  rename_i j hj
  have hjoin := h.join_flush hj
  obtain ⟨be, hbe⟩ : ∃ be, j.backend = some be := by
    rw [← Option.isSome_iff_exists, hjoin.backend]
    exact hbs
  obtain ⟨be', hc⟩ := be.commit_partial_ok j.map
  rw [hbe] at hf
  dsimp only at hf
  rw [hc] at hf
  obtain ⟨hok, hget⟩ := hjoin.ok.commit_partial hjoin.idle hbe hc
  rw [← (Prod.mk.inj hf).2]
  refine Or.inr ⟨hbs, j, hj, hok, fun op => ?_⟩
  rw [← hjoin.map]
  exact hget op

theorem Ok.apply {t : UtxoSet} (h : Ok s) {o : CoinOp} (ho : s.apply o = (.ok (), t)) : Ok t := by
  cases o with
  | put op entry =>
    cases ho
    exact h.put op entry
  | spend_coin op =>
    cases ho
    exact (h.spend op).1
  | remove_entry op =>
    cases ho
    exact (h.remove_entry op).1
  | read op =>
    cases ho
    exact (h.note_read (.none s) op).1
  | flush_to_backend undos tip => exact (h.flush_to_backend ho).1
  | flush_to_backend_owned undos tip => exact (h.flush_to_backend_owned ho).1
  | commit_lands =>
    cases ho
    exact h.run_worker.1
  | join_flush => exact (h.join_flush ho).ok
  | flush_partial_to_backend =>
    rcases h.flush_partial_to_backend ho with ⟨-, rfl⟩ | ⟨-, j, -, ht, -⟩
    · exact h
    · exact ht

theorem Reachable.ok (h : Reachable s) : Ok s := by
  induction h with
  | new => exact new_ok
  | attach_backend be _ hbase hidle hb ih => exact ih.attach_backend hbase hidle hb
  | attach_snapshot run _ hbase hb ih => exact ih.attach_snapshot hbase hb
  | enable_runs found _ hbase hidle hruns hwf hb ih => exact ih.enable_runs hbase hidle hruns hwf hb
  | enable_flat _ hbase hb ih => exact ih.enable_flat hbase hb
  | step o _ ho ih => exact ih.apply ho
  | prefetched_read op p _ hp ih => exact (ih.note_read hp op).1
  | overlay _ ih => exact overlay_ok ih
  | unoverlay left commit _ hb ih => exact unoverlay_ok ih hb left commit

end UtxoSet

end AvilaNode
