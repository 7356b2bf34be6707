import AvilaNode.UtxoView

/-! The asynchronous flush: the commit worker, the join, and what they leave visible. -/

namespace AvilaNode

open Layers

namespace UtxoSet

variable {s t : UtxoSet} {job : FlushJob}

theorem snap_lookup_job (hj : s.flush_join = some job)
    (hl : s.flush_join.map FlushJob.snap = s.flushing.map FlushLayer.snap) (op : OutPoint) :
    snap_lookup s.flushing op = job.snap.lookup op := by
  rw [hj, Option.map_some, eq_comm, Option.map_eq_some_iff] at hl
  obtain ⟨layer, hf, hs⟩ := hl
  simp [snap_lookup, hf, hs]

structure Accepted (s : UtxoSet) : Prop where
  accepted : ∀ job be, s.flush_join = some job → job.result = none → job.epoch = none →
    s.backend = some be → be.ensure_tip_respects_floor (some job.tip) = .ok ()
  landed : ∀ job e, s.flush_join = some job → job.result ≠ some (.error e)

theorem Accepted.of_idle (h : s.flush_join = none) : Accepted s where
  accepted job be hj := by
    rw [h] at hj
    cases hj
  landed job e hj := by
    rw [h] at hj
    cases hj

theorem run_worker_cases (s : UtxoSet) : s.run_worker = s ∨
    ∃ job, s.flush_join = some job ∧ job.result = none ∧
      ((∃ seq, job.epoch = some seq ∧
          s.run_worker = { s with flush_join := some { job with
            result := some (.ok (some (write_epoch seq job.tip job.delta job.snap job.undos))) } }) ∨
        (job.epoch = none ∧ ∃ be be', s.backend = some be ∧
          be.commit job.snap job.undos job.tip = .ok be' ∧
          s.run_worker = { s with backend := some be', flush_join := some { job with result := some (.ok none) } }) ∨
        (job.epoch = none ∧ ∃ e,
          s.run_worker = { s with flush_join := some { job with result := some (.error e) } })) := by
  unfold run_worker
  cases hj : s.flush_join with
  | none => exact Or.inl rfl
  | some job =>
    dsimp only
    cases hr : job.result with
    | some r => exact Or.inl rfl
    | none =>
      cases he : job.epoch with
      | some seq => exact Or.inr ⟨job, rfl, hr, Or.inl ⟨seq, he, by simp only [he]⟩⟩
      | none =>
        cases hb : s.backend with
        | none => exact Or.inl rfl
        | some be =>
          dsimp only
          cases hc : be.commit job.snap job.undos job.tip with
          | ok be' => exact Or.inr ⟨job, rfl, hr, Or.inr (Or.inl ⟨he, be, be', rfl, hc, by simp only [he]⟩)⟩
          | error e => exact Or.inr ⟨job, rfl, hr, Or.inr (Or.inr ⟨he, e, by simp only [he]⟩)⟩

structure SameLayers (s t : UtxoSet) : Prop where
  map : t.map = s.map
  base : t.base = s.base
  snapshot : t.snapshot = s.snapshot
  flat : t.flat = s.flat
  flushing : t.flushing = s.flushing
  runs : t.runs = s.runs
  runs_dir : t.runs_dir = s.runs_dir
  backend : t.backend.isSome = s.backend.isSome

theorem run_worker_same (s : UtxoSet) : SameLayers s s.run_worker := by
  rcases run_worker_cases s with he | ⟨job, -, -, ⟨seq, -, he⟩ | ⟨-, be, be', hb, -, he⟩ | ⟨-, e, he⟩⟩
  · rw [he]
    constructor <;> rfl
  · rw [he]
    constructor <;> rfl
  · rw [he]
    constructor <;> first | rfl | simp [hb]
  · rw [he]
    constructor <;> rfl

theorem promote_get {map : Delta OutPoint Coin} {clean : CleanCoinCache}
    {es : List (OutPoint × CleanCoinEntry)} {k : OutPoint} {c : Coin}
    (h : (promote map clean es).get k = some c) :
    clean.get k = some c ∨ (map.lookup k = none ∧ ∃ entry, (k, entry) ∈ es ∧ entry.coin = c) := by
  induction es generalizing clean with
  | nil => exact Or.inl h
  | cons e es ih =>
    obtain ⟨op, entry⟩ := e
    rw [promote] at h
    rcases ih h with h | ⟨hm, entry', he, hc⟩
    · split at h
      · exact Or.inl h
      · rename_i hm
        rcases CleanCoinCache.get_insert h with ⟨rfl, rfl⟩ | ⟨-, h⟩
        · exact Or.inr ⟨by simpa using hm, entry, List.mem_cons_self, rfl⟩
        · exact Or.inl h
    · exact Or.inr ⟨hm, entry', List.mem_cons_of_mem _ he, hc⟩

theorem run_worker_job (hj : s.run_worker.flush_join = some job) :
    ∃ old, s.flush_join = some old ∧ old.snap = job.snap ∧ old.undos = job.undos ∧ old.tip = job.tip ∧
      old.delta = job.delta ∧ old.epoch = job.epoch := by
  rcases run_worker_cases s with he | ⟨old, ho, -, ⟨seq, -, he⟩ | ⟨-, be, be', -, -, he⟩ | ⟨-, e, he⟩⟩
  · exact ⟨job, he ▸ hj, rfl, rfl, rfl, rfl, rfl⟩
  all_goals
    rw [he] at hj
    cases hj
    exact ⟨old, ho, rfl, rfl, rfl, rfl, rfl⟩

theorem getD_or {α : Type} (a b : Option α) (c : α) : (a.or b).getD c = a.getD (b.getD c) := by
  cases a <;> rfl

variable [Platform]

theorem LayersOk.job_result (h : LayersOk s) (hj : s.flush_join = some job) {r : Except IoError (Option EpochLayer)}
    (hr : ∀ epoch, r = .ok (some epoch) → ∃ seq, job.epoch = some seq ∧
      epoch = write_epoch seq job.tip job.delta job.snap job.undos)
    (hc : r ≠ .ok none) : LayersOk { s with flush_join := some { job with result := some r } } :=
  { h with
    flat_backend := fun f be op c hf hb hg => by
      rcases h.flat_backend f be op c hf hb hg with h | ⟨job', hj', he, hs⟩
      · exact Or.inl h
      · rw [hj] at hj'
        cases hj'
        exact Or.inr ⟨_, rfl, he, hs⟩
    job_layer := by rw [← h.job_layer, hj]; rfl
    job_backend := fun _ => h.job_backend (by rw [hj]; rfl)
    job_runs := fun job' hj' => by cases hj'; exact h.job_runs job hj
    job_commit := fun job' be hj' hr' => by
      cases hj'
      cases hr'
      exact absurd rfl hc
    job_epoch := fun job' epoch hj' hr' => by
      cases hj'
      exact hr epoch (Option.some.inj hr')
    epoch_dir := fun job' seq hj' => by cases hj'; exact h.epoch_dir job seq hj }

variable {be be' : CoinsBackend} {undos : List UndoRow} {layer : FlushLayer}

theorem LayersOk.commit_under (h : LayersOk s) (hj : s.flush_join = some job)
    (hc : be.commit job.snap job.undos job.tip = .ok be') (op : OutPoint) (hop : snap_lookup s.flushing op = none) :
    be'.get op = be.get op := by
  rw [snap_lookup_job hj h.job_layer] at hop
  rw [CoinsBackend.commit_inner_coins hc, overlaid_of_none _ hop]

theorem Ok.run_worker (h : Ok s) : Ok s.run_worker ∧ s.run_worker.under = s.under := by
  rcases run_worker_cases s with he | ⟨job, hj, hr, ⟨seq, hs, he⟩ | ⟨hs, be, be', hb, hc, he⟩ | ⟨hs, e, he⟩⟩
  · rw [he]
    exact ⟨h, rfl⟩
  · rw [he]
    refine ⟨.intro _ (h.layers.job_result hj (fun epoch hep => ?_) (by simp)) fun _ => h.base, rfl⟩
    cases hep
    exact ⟨seq, hs, rfl⟩
  · have hget := h.layers.commit_under hj hc
    have hu : UtxoSet.under
      { s with backend := some be', flush_join := some { job with result := some (.ok none) } } =
        s.under := by
      funext op
      unfold under upper committed
      cases hsn : snap_lookup s.flushing op with
      | some e => rfl
      | none =>
        rw [hb]
        dsimp only
        rw [hget op hsn]
    rw [he]
    refine ⟨.intro _ ?_ fun _ => h.base, hu⟩
    exact
      { h.layers with
        clean_backend := fun op c hop => by
          obtain ⟨hm, hsn, be₀, hb₀, hg⟩ := h.layers.clean_backend op c hop
          rw [hb] at hb₀
          cases hb₀
          exact ⟨hm, hsn, be', rfl, (hget op hsn).trans hg⟩
        born_under := fun k hk => by rw [hu]; exact h.layers.born_under k hk
        flat_backend := fun f be₀ op c hf hb₀ hg => by
          cases hb₀
          cases hsn : job.snap.lookup op with
          | some e => exact Or.inr ⟨_, rfl, hs, by simp [hsn]⟩
          | none =>
            rw [hget op (by rw [snap_lookup_job hj h.layers.job_layer, hsn])] at hg
            rcases h.layers.flat_backend f be op c hf hb hg with h | ⟨job', hj', -, hs'⟩
            · exact Or.inl h
            · rw [hj] at hj'
              cases hj'
              rw [hsn] at hs'
              cases hs'
        overlay_bare := fun b hbase => by
          have := (h.layers.overlay_bare b hbase).1
          rw [hb] at this
          cases this
        job_layer := by rw [← h.layers.job_layer, hj]; rfl
        job_backend := fun _ => rfl
        job_runs := fun job' hj' => by cases hj'; exact h.layers.job_runs job hj
        job_commit := fun job' be₀ hj' _ hb₀ => by
          cases hj'
          cases hb₀
          refine ⟨hs, fun op e hop => ?_⟩
          rw [CoinsBackend.commit_inner_coins hc, overlaid_of_lookup _ hop]
        job_epoch := fun job' epoch hj' hr' => by
          cases hj'
          cases hr'
        epoch_dir := fun job' seq hj' => by cases hj'; exact h.layers.epoch_dir job seq hj }
  · rw [he]
    refine ⟨.intro _ (h.layers.job_result hj (fun epoch hep => ?_) (by simp)) fun _ => h.base, rfl⟩
    cases hep

theorem Ok.get_run_worker (h : Ok s) : s.run_worker.get = s.get := by
  obtain ⟨hok, hu⟩ := h.run_worker
  rw [hok.get_eq, h.get_eq, hu, (run_worker_same s).map]

theorem promote_warm_get {warm : CleanCoinCache} {k : OutPoint} {c : Coin}
    (h : (s.promote_warm warm).clean.get k = some c) :
    s.clean.get k = some c ∨ (s.map.lookup k = none ∧ warm.get k = some c) := by
  unfold promote_warm at h
  split at h
  · rcases promote_get h with h | ⟨hm, entry, he, hc⟩
    · exact Or.inl h
    · rw [mem_toList] at he
      exact Or.inr ⟨hm, by simp [CleanCoinCache.get, he, hc]⟩
  · exact Or.inl h

theorem promote_warm_eq (s : UtxoSet) (warm : CleanCoinCache) :
    ∃ clean, s.promote_warm warm = { s with clean } := by
  unfold promote_warm
  split
  · exact ⟨_, rfl⟩
  · exact ⟨s.clean, by cases s; rfl⟩

theorem join_flush_cases (h : s.join_flush = (.ok (), t)) : (s.run_worker.flush_join = none ∧ t = s) ∨
    (∃ job, s.run_worker.flush_join = some job ∧ s.flushing = none) ∨
    ∃ job layer, s.run_worker.flush_join = some job ∧ s.flushing = some layer ∧
      ((∃ epoch, job.result = some (.ok (some epoch)) ∧
          t = { s.run_worker with flush_join := none, flushing := none, runs := s.run_worker.runs ++ [epoch] }) ∨
        (job.result = some (.ok none) ∧
          t = promote_warm
            { s.run_worker with
              flush_join := none, flushing := none
              flat := s.run_worker.flat.map fun f => applyDelta f layer.snap } layer.warm)) := by
  unfold join_flush at h
  cases hj : s.run_worker.flush_join with
  | none =>
    rw [hj] at h
    exact Or.inl ⟨rfl, (Prod.mk.inj h).2.symm⟩
  | some job =>
    rw [hj] at h
    dsimp only at h
    have hf := (run_worker_same s).flushing
    cases hl : s.flushing with
    | none => exact Or.inr (Or.inl ⟨job, rfl, rfl⟩)
    | some layer =>
      rw [hf, hl] at h
      dsimp only at h
      refine Or.inr (Or.inr ⟨job, layer, rfl, rfl, ?_⟩)
      split at h
      · rename_i epoch hr
        split at h
        · exact Or.inl ⟨epoch, hr, (Prod.mk.inj h).2.symm⟩
        · cases h
      · rename_i hr
        exact Or.inr ⟨hr, (Prod.mk.inj h).2.symm⟩
      · cases h
      · cases h

def JoinSafe (s : UtxoSet) : Prop :=
  ∀ job seq, s.flush_join = some job → job.epoch = some seq →
    (write_epoch seq job.tip job.delta job.snap job.undos).run.windowed

theorem Ok.attach_epoch (h : Ok s) {epoch : EpochLayer} (hj : s.flush_join = some job) (hl : s.flushing = some layer)
    (hr : job.result = some (.ok (some epoch))) :
    Ok { s with flush_join := none, flushing := none, runs := s.runs ++ [epoch] } ∧
      (epoch.run.windowed →
        UtxoSet.under { s with flush_join := none, flushing := none, runs := s.runs ++ [epoch] } = s.under) := by
  obtain ⟨seq, hseq, hep⟩ := h.layers.job_epoch job epoch hj hr
  have hbase : s.base = none := by
    cases hb : s.base with
    | none => rfl
    | some b =>
      have := (h.layers.overlay_bare b hb).2.2.2.2
      rw [hl] at this
      cases this
  have hsnap := snap_lookup_job hj h.layers.job_layer
  have hunder : ∀ op, s.under op = ((job.snap.lookup op).or (probe_runs s.runs op)).getD (s.committed op) := by
    intro op
    rw [getD_or, under, hsnap, upper, hbase]
    cases job.snap.lookup op <;> rfl
  have hafter : ∀ op,
      UtxoSet.under { s with flush_join := none, flushing := none, runs := s.runs ++ [epoch] } op =
        ((epoch.probe op).or (probe_runs s.runs op)).getD (s.committed op) := by
    intro op
    rw [← probe_runs_append]
    unfold under upper
    rw [hbase]
    rfl
  refine ⟨.intro _ ?_ fun _ => h.base, fun hw => ?_⟩
  · exact
      { h.layers with
        clean_backend := fun op c hop => by
          obtain ⟨hm, -, hb⟩ := h.layers.clean_backend op c hop
          exact ⟨hm, rfl, hb⟩
        warm_snap := fun _ hl' => by cases hl'
        born_under := fun op hop => by
          obtain ⟨hm, hu⟩ := h.layers.born_under op hop
          refine ⟨hm, ?_⟩
          rw [hafter, hep]
          rw [hunder] at hu
          rcases probe_write_epoch_cases seq job.tip job.delta job.snap job.undos op with hp | ⟨-, c, hc⟩
          · rw [hp, hu]
          · rw [hc] at hu
            cases hu
        flat_backend := fun f be op c hf hb hg => by
          rcases h.layers.flat_backend f be op c hf hb hg with h | ⟨job', hj', he, -⟩
          · exact Or.inl h
          · rw [hj] at hj'
            cases hj'
            rw [hseq] at he
            cases he
        overlay_bare := fun b hb => by
          rw [hbase] at hb
          cases hb
        runs_wf := fun l hl' => by
          rcases List.mem_append.mp hl' with hl' | hl'
          · exact h.layers.runs_wf l hl'
          · rw [List.mem_singleton] at hl'
            rw [hl', hep]
            exact write_epoch_wf _ _ _ _ _
        job_layer := rfl
        job_backend := fun hn => by cases hn
        job_runs := fun _ hj' => by cases hj'
        job_commit := fun _ _ hj' => by cases hj'
        job_epoch := fun _ _ hj' => by cases hj'
        epoch_dir := fun _ _ hj' => by cases hj'
        runs_dir_of := fun _ => h.layers.epoch_dir job seq hj hseq }
  · funext op
    rw [hafter, hunder, hep, probe_write_epoch (hep ▸ hw)]

theorem Ok.fold_commit (h : Ok s) (hj : s.flush_join = some job) (hl : s.flushing = some layer)
    (hr : job.result = some (.ok none))
    (ht : t = promote_warm
      { s with flush_join := none, flushing := none, flat := s.flat.map fun f => applyDelta f layer.snap } layer.warm) :
    Ok t ∧ t.under = s.under ∧ t.map = s.map := by
  obtain ⟨be, hb⟩ := Option.isSome_iff_exists.mp (h.layers.job_backend (by rw [hj]; rfl))
  obtain ⟨hep, hcommit⟩ := h.layers.job_commit job be hj hr hb
  have hruns := h.layers.job_runs job hj hep
  have hbase : s.base = none := by
    cases hb' : s.base with
    | none => rfl
    | some b =>
      have := (h.layers.overlay_bare b hb').1
      rw [hb] at this
      cases this
  have hsnap := snap_lookup_job hj h.layers.job_layer
  have hls : ∀ op, layer.snap.lookup op = job.snap.lookup op := by
    intro op
    rw [← hsnap op, hl]
    rfl
  obtain ⟨clean, hclean⟩ := promote_warm_eq
    { s with flush_join := none, flushing := none, flat := s.flat.map fun f => applyDelta f layer.snap } layer.warm
  have hcl : ∀ k c, clean.get k = some c → s.map.lookup k = none ∧ be.get k = some c := by
    intro k c hk
    have hk' : (promote_warm
      { s with flush_join := none, flushing := none, flat := s.flat.map fun f => applyDelta f layer.snap }
        layer.warm).clean.get k = some c := by rw [hclean]; exact hk
    rcases promote_warm_get hk' with hk' | ⟨hm, hw⟩
    · obtain ⟨hm, -, be', hb', hg⟩ := h.layers.clean_backend k c hk'
      rw [hb] at hb'
      cases hb'
      exact ⟨hm, hg⟩
    · refine ⟨hm, hcommit k (some c) ?_⟩
      rw [← hls k]
      exact h.layers.warm_snap layer hl k c hw
  have hu : t.under = s.under := by
    rw [ht, hclean]
    funext op
    unfold under upper committed
    rw [hsnap op, hbase, hruns, hb]
    cases hop : job.snap.lookup op with
    | none =>
      cases hf : s.flat with
      | none => rfl
      | some f => simp [snap_lookup, lookup_applyDelta, overlaid, hls, hop, probe_runs]
    | some e =>
      cases hf : s.flat with
      | none => simpa [snap_lookup, probe_runs] using hcommit op e hop
      | some f => simp [snap_lookup, lookup_applyDelta, overlaid, hls, hop, probe_runs]
  have hok : LayersOk t := by
    have hborn : ∀ op ∈ s.born, (s.map.lookup op).isSome ∧ t.under op = none := by
      intro op hop
      rw [hu]
      exact h.layers.born_under op hop
    rw [ht, hclean] at hborn ⊢
    exact
      { h.layers with
        clean_backend := fun k c hk => by
          obtain ⟨hm, hg⟩ := hcl k c hk
          exact ⟨hm, rfl, be, hb, hg⟩
        warm_snap := fun _ hl' => by cases hl'
        born_under := hborn
        flat_backend := fun f be' op c hf hb' hg => by
          left
          rw [hb] at hb'
          cases hb'
          obtain ⟨f₀, hf₀, rfl⟩ := Option.map_eq_some_iff.mp hf
          rw [lookup_applyDelta, overlaid, hls]
          cases hop : job.snap.lookup op with
          | some e => rw [← hg, hcommit op e hop]; rfl
          | none =>
            rcases h.layers.flat_backend f₀ be op c hf₀ hb hg with h | ⟨job', hj', -, hs'⟩
            · exact h
            · rw [hj] at hj'
              cases hj'
              rw [hop] at hs'
              cases hs'
        overlay_bare := fun b hb' => by
          rw [hbase] at hb'
          cases hb'
        job_layer := rfl
        job_backend := fun hn => by cases hn
        job_runs := fun _ hj' => by cases hj'
        job_commit := fun _ _ hj' => by cases hj'
        job_epoch := fun _ _ hj' => by cases hj'
        epoch_dir := fun _ _ hj' => by cases hj' }
  refine ⟨.intro _ hok fun b hb' => ?_, hu, ?_⟩
  · rw [ht, hclean] at hb'
    exact h.base hb'
  · rw [ht, hclean]

structure Joined (s t : UtxoSet) : Prop where
  ok : Ok t
  map : t.map = s.map
  idle : t.flush_join = none
  flushing : t.flushing = none
  backend : t.backend.isSome = s.backend.isSome
  get : JoinSafe s → t.get = s.get

section

variable (h : Ok s)
include h

theorem Ok.idle_flushing (hj : s.flush_join = none) : s.flushing = none := by
  have := h.layers.job_layer
  rw [hj] at this
  simpa using this.symm

theorem Ok.join_flush (hj : s.join_flush = (.ok (), t)) : Joined s t := by
  obtain ⟨hw, hwu⟩ := h.run_worker
  have same := run_worker_same s
  rcases join_flush_cases hj with ⟨hn, rfl⟩ | ⟨job, hwj, hl⟩ | ⟨job, layer, hwj, hl, hres⟩
  · have hidle : t.flush_join = none := by
      cases hs : t.flush_join with
      | none => rfl
      | some job =>
        rcases run_worker_cases t with he | ⟨_, _, -, ⟨_, -, he⟩ | ⟨-, _, _, -, -, he⟩ | ⟨-, _, he⟩⟩ <;>
          rw [he] at hn <;> simp_all
    exact ⟨h, rfl, hidle, h.idle_flushing hidle, rfl, fun _ => rfl⟩
  · have := hw.layers.job_layer
    rw [hwj, same.flushing, hl] at this
    cases this
  · rw [← same.flushing] at hl
    rcases hres with ⟨epoch, hr, rfl⟩ | ⟨hr, ht⟩
    · obtain ⟨hok, hu⟩ := hw.attach_epoch hwj hl hr
      refine ⟨hok, same.map, rfl, rfl, same.backend, fun hsafe => ?_⟩
      obtain ⟨seq, hseq, hep⟩ := hw.layers.job_epoch job epoch hwj hr
      obtain ⟨old, ho, h1, h2, h3, h4, h5⟩ := run_worker_job hwj
      have hwin : epoch.run.windowed := by
        have := hsafe old seq ho (h5.trans hseq)
        rw [h1, h2, h3, h4] at this
        rwa [hep]
      rw [hok.get_eq, h.get_eq, hu hwin, hwu]
      exact congrArg (fun m => overlaid m s.under) same.map
    · obtain ⟨hok, hu, hm⟩ := hw.fold_commit hwj hl hr ht
      obtain ⟨clean, hclean⟩ := promote_warm_eq
        { s.run_worker with
          flush_join := none, flushing := none
          flat := s.run_worker.flat.map fun f => applyDelta f layer.snap } layer.warm
      rw [hclean] at ht
      refine ⟨hok, hm.trans same.map, by rw [ht], by rw [ht], by rw [ht]; exact same.backend, fun _ => ?_⟩
      rw [hok.get_eq, h.get_eq, hu, hwu, hm, same.map]

theorem Ok.run_worker_result (hs : Accepted s) (hj : s.run_worker.flush_join = some job) :
    job.result = some (.ok none) ∨ ∃ epoch, job.result = some (.ok (some epoch)) := by
  unfold UtxoSet.run_worker at hj
  cases ho : s.flush_join with
  | none =>
    rw [ho] at hj
    rw [ho] at hj
    cases hj
  | some old =>
    rw [ho] at hj
    dsimp only at hj
    cases hr : old.result with
    | some r =>
      rw [hr] at hj
      rw [ho] at hj
      cases hj
      rcases r with e | epoch
      · exact absurd hr (hs.landed job e ho)
      · cases epoch with
        | none => exact Or.inl hr
        | some epoch => exact Or.inr ⟨epoch, hr⟩
    | none =>
      rw [hr] at hj
      cases hep : old.epoch with
      | some seq =>
        simp only [hep] at hj
        cases hj
        exact Or.inr ⟨_, rfl⟩
      | none =>
        obtain ⟨be, hb⟩ := Option.isSome_iff_exists.mp (h.layers.job_backend (by rw [ho]; rfl))
        obtain ⟨be', hc⟩ :=
          CoinsBackend.commit_ok (hs.accepted old be ho hr hep hb) old.snap old.undos
        simp only [hep, hb, hc] at hj
        cases hj
        exact Or.inl rfl

theorem Ok.join_flush_ok (hs : Accepted s) : ∃ t, s.join_flush = (.ok (), t) := by
  unfold UtxoSet.join_flush
  cases hj : s.run_worker.flush_join with
  | none => exact ⟨s, rfl⟩
  | some job =>
    dsimp only
    split
    · exact ⟨_, rfl⟩
    rcases h.run_worker_result hs hj with hr | ⟨epoch, hr⟩
    · rw [hr]
      exact ⟨_, rfl⟩
    obtain ⟨seq, hseq, -⟩ := h.run_worker.1.layers.job_epoch job epoch hj hr
    have hdir := h.run_worker.1.layers.epoch_dir job seq hj hseq
    rw [hr]
    dsimp only
    rw [if_pos hdir]
    exact ⟨_, rfl⟩

theorem Ok.start_flush (hidle : s.flush_join = none) (hb : s.backend.isSome) (undos : List UndoRow) (tip : ℕ) :
    let t : UtxoSet := { s with
      map := ∅, warm := .default, born := ∅, live_delta := 0, map_bytes := 0
      flushing := some ⟨s.map, s.live_delta, s.map_bytes, tip, s.warm⟩
      runs_seq := if s.runs_dir then s.runs_seq + 1 else s.runs_seq
      flush_join := some ⟨s.map, undos, tip, s.live_delta, if s.runs_dir then some s.runs_seq else none, none⟩ }
    Ok t ∧ t.get = s.get := by
  intro t
  have hfl := h.idle_flushing hidle
  have hok : Ok t := .intro t
    { h.layers with
      clean_backend := fun op c hop => by
        obtain ⟨hm, -, hbe⟩ := h.layers.clean_backend op c hop
        exact ⟨rfl, hm, hbe⟩
      warm_map := fun op c hop => by
        rw [CleanCoinCache.get_default] at hop
        cases hop
      warm_snap := fun layer hl => by cases hl; exact h.layers.warm_map
      born_under := fun op hop => by cases hop
      flat_backend := fun f be op c hf hbe hg => by
        rcases h.layers.flat_backend f be op c hf hbe hg with h | ⟨job, hj, -⟩
        · exact Or.inl h
        · rw [hidle] at hj
          cases hj
      overlay_bare := fun b hbase => by
        rw [(h.layers.overlay_bare b hbase).1] at hb
        cases hb
      job_layer := rfl
      job_backend := fun _ => hb
      job_runs := fun job hj hep => by
        cases hj
        by_contra hruns
        rw [if_pos (h.layers.runs_dir_of hruns)] at hep
        cases hep
      job_commit := fun job be hj hr => by
        cases hj
        cases hr
      job_epoch := fun job epoch hj hr => by
        cases hj
        cases hr
      epoch_dir := fun job seq hj hep => by
        cases hj
        by_contra hdir
        rw [if_neg hdir] at hep
        cases hep } fun _ => h.base
  refine ⟨hok, ?_⟩
  rw [hok.get_eq, h.get_eq]
  funext op
  have hu : s.under op = (s.upper op).getD (s.committed op) := by rw [under, hfl]; rfl
  have ht : t.under op = (s.map.lookup op).getD ((s.upper op).getD (s.committed op)) := under_eq t op
  rw [overlaid, overlaid, hu, ht]
  cases s.map.lookup op <;> rfl

theorem Ok.flush_to_backend_owned {tip : ℕ} (hf : s.flush_to_backend_owned undos tip = (.ok (), t)) :
    Ok t ∧ (JoinSafe s → t.get = s.get) := by
  unfold UtxoSet.flush_to_backend_owned at hf
  split at hf
  · rw [(Prod.mk.inj hf).2] at h
    exact ⟨h, fun _ => by rw [(Prod.mk.inj hf).2]⟩
  rename_i hb
  split at hf
  · cases hf
  rename_i s' hj
  have hs := h.join_flush hj
  have hb' : s'.backend.isSome := by
    rw [hs.backend]
    simpa [Option.isSome_iff_ne_none] using hb
  obtain ⟨hok, hg⟩ := hs.ok.start_flush hs.idle hb' undos tip
  rw [(Prod.mk.inj hf).2] at hok hg
  exact ⟨hok, fun hsafe => hg.trans (hs.get hsafe)⟩

theorem Ok.flush_to_backend {tip : ℕ} (hf : s.flush_to_backend undos tip = (.ok (), t)) :
    Ok t ∧ (JoinSafe s → t.get = s.get) := by
  unfold UtxoSet.flush_to_backend at hf
  split at hf
  · rw [(Prod.mk.inj hf).2] at h
    exact ⟨h, fun _ => by rw [(Prod.mk.inj hf).2]⟩
  split at hf
  · cases hf
  rename_i s' hj
  have hs := h.join_flush hj
  have hidle : JoinSafe s' := fun job seq hjob => by rw [hs.idle] at hjob; cases hjob
  obtain ⟨hok, hg⟩ := hs.ok.flush_to_backend_owned hf
  exact ⟨hok, fun hsafe => (hg hidle).trans (hs.get hsafe)⟩

/-- What a partial flush of an idle set shows: a key of the dirty map is answered by the run
epochs first, by the written value otherwise. -/
theorem Ok.commit_partial (hidle : s.flush_join = none) (hb : s.backend = some be)
    (hc : be.commit_partial s.map = .ok be') :
    let t : UtxoSet := { (promote_warm { s with
        backend := some be', flat := s.flat.map fun f => applyDelta f s.map, warm := .default } s.warm) with
      map := ∅, map_bytes := 0, live_delta := 0, born := ∅ }
    Ok t ∧ ∀ op, t.get op = match s.map.lookup op with
      | some e => (probe_runs s.runs op).getD e
      | none => s.get op := by
  intro t
  have hfl := h.idle_flushing hidle
  have hbase : s.base = none := by
    cases hb' : s.base with
    | none => rfl
    | some b =>
      have := (h.layers.overlay_bare b hb').1
      rw [hb] at this
      cases this
  have hget : ∀ op, be'.get op = overlaid s.map be.get op := fun op => CoinsBackend.commit_inner_coins hc op
  obtain ⟨clean, hclean⟩ := promote_warm_eq { s with
    backend := some be', flat := s.flat.map fun f => applyDelta f s.map, warm := .default } s.warm
  have hcl : ∀ k c, clean.get k = some c → be'.get k = some c := by
    intro k c hk
    have hk' : (promote_warm { s with
      backend := some be', flat := s.flat.map fun f => applyDelta f s.map, warm := .default }
        s.warm).clean.get k = some c := by rw [hclean]; exact hk
    rcases promote_warm_get hk' with hk' | ⟨hm, hw⟩
    · obtain ⟨hm, -, be₀, hb₀, hg⟩ := h.layers.clean_backend k c hk'
      rw [hb] at hb₀
      cases hb₀
      rw [hget, overlaid_of_none _ hm, hg]
    · have hw' := h.layers.warm_map k c hw
      rw [hm] at hw'
      cases hw'
  have ht : t = { s with
      backend := some be', flat := s.flat.map fun f => applyDelta f s.map, warm := .default, clean
      map := ∅, map_bytes := 0, live_delta := 0, born := ∅ } := by
    simp only [t, hclean]
  have hok : Ok t := by
    rw [ht]
    refine .intro _ ?_ fun _ => h.base
    exact
      { h.layers with
        clean_backend := fun op c hop => ⟨rfl, by simp [snap_lookup, hfl], be', rfl, hcl op c hop⟩
        warm_map := fun op c hop => by
          rw [CleanCoinCache.get_default] at hop
          cases hop
        born_under := fun op hop => by cases hop
        flat_backend := fun f be₀ op c hf hbe hg => by
          left
          cases hbe
          obtain ⟨f₀, hf₀, rfl⟩ := Option.map_eq_some_iff.mp hf
          rw [hget] at hg
          rw [lookup_applyDelta]
          cases hop : s.map.lookup op with
          | some e =>
            rw [overlaid_of_lookup _ hop] at hg ⊢
            exact hg
          | none =>
            rw [overlaid_of_none _ hop] at hg ⊢
            rcases h.layers.flat_backend f₀ be op c hf₀ hb hg with h | ⟨job, hj, -⟩
            · exact h
            · rw [hidle] at hj
              cases hj
        overlay_bare := fun b hb' => by
          rw [hbase] at hb'
          cases hb'
        job_backend := fun _ => rfl
        job_commit := fun job _ hj => by
          rw [hidle] at hj
          cases hj }
  refine ⟨hok, fun op => ?_⟩
  have hcom : UtxoSet.committed { s with
      backend := some be', flat := s.flat.map fun f => applyDelta f s.map, warm := .default, clean
      map := ∅, map_bytes := 0, live_delta := 0, born := ∅ } op = (s.map.lookup op).getD (s.committed op) := by
    unfold committed
    cases hf : s.flat with
    | some f => exact lookup_applyDelta f s.map op
    | none =>
      dsimp only [Option.map_none]
      rw [hb, hget]
      rfl
  have hs : s.under op = (probe_runs s.runs op).getD (s.committed op) := by
    rw [under, upper, hfl, hbase]
    rfl
  have ht' : t.under op = (probe_runs s.runs op).getD ((s.map.lookup op).getD (s.committed op)) := by
    rw [← hcom, ht, under, upper]
    rw [hfl, hbase]
    rfl
  have hm : t.map = ∅ := rfl
  rw [hok.get_eq, h.get_eq, hm, overlaid_empty, ht', overlaid, hs]
  cases s.map.lookup op <;> rfl

end

end UtxoSet

end AvilaNode
