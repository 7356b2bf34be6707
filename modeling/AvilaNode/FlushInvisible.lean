import AvilaNode.LayerStacks

/-! Runs of writes and flushes: the visible coins move by the writes alone. -/

namespace AvilaNode

open Layers Transitions

def CoinOp.effect : CoinOp → View OutPoint Coin → View OutPoint Coin
  | .put op entry, v => Function.update v op entry
  | .spend_coin op, v => Function.update v op none
  | .remove_entry op, v => Function.update v op none
  | _, v => v

theorem foldl_effect_same {op : OutPoint} {os : List CoinOp} {v : View OutPoint Coin} (hv : v op = none)
    (h : ∀ e, .put op e ∉ os) : os.foldl (fun v o => o.effect v) v op = none := by
  induction os generalizing v with
  | nil => exact hv
  | cons o os ih =>
    refine ih ?_ fun e he => h e (List.mem_cons_of_mem _ he)
    cases o with
    | put k e =>
      have hne : op ≠ k := fun hk => h e (hk ▸ List.mem_cons_self)
      simpa [CoinOp.effect, hne] using hv
    | spend_coin k =>
      by_cases hk : op = k
      · simp [CoinOp.effect, hk]
      · simpa [CoinOp.effect, hk] using hv
    | remove_entry k =>
      by_cases hk : op = k
      · simp [CoinOp.effect, hk]
      · simpa [CoinOp.effect, hk] using hv
    | read | flush_to_backend | flush_to_backend_owned | commit_lands | join_flush
    | flush_partial_to_backend => exact hv

namespace UtxoSet

def epochs_answer (s : UtxoSet) [Platform] (op : OutPoint) : Option (Option Coin) :=
  match s.flush_join with
  | some job => if job.epoch.isSome then (job.snap.lookup op).or (probe_runs s.runs op) else probe_runs s.runs op
  | none => probe_runs s.runs op

variable [Platform]

structure Settles (s : UtxoSet) : Prop extends Accepted s where
  windowed : JoinSafe s

def PartialSafe (s : UtxoSet) : Prop :=
  ∀ op e hit, s.map.lookup op = some e → s.epochs_answer op = some hit → hit = e

end UtxoSet

open UtxoSet

section

variable [Platform]

def CoinOp.Safe (s : UtxoSet) : CoinOp → Prop
  | .flush_to_backend _ _ => s.Settles
  | .flush_to_backend_owned _ _ => s.Settles
  | .join_flush => s.Settles
  | .flush_partial_to_backend => s.Settles ∧ s.PartialSafe
  | _ => True

def SafeStep (s : UtxoSet) (o : CoinOp) (t : UtxoSet) : Prop := o.Safe s ∧ (s.apply o).2 = t

namespace UtxoSet

theorem spend_flush_join (s : UtxoSet) (op : OutPoint) : (s.spend op).2.flush_join = s.flush_join := by
  unfold UtxoSet.spend
  dsimp only
  split
  · split
    · split <;> rfl
    · rfl
  · split <;> rfl

variable {s : UtxoSet}

theorem Settles.of_idle (h : s.flush_join = none) : s.Settles where
  toAccepted := .of_idle h
  windowed job seq hj := by
    rw [h] at hj
    cases hj

theorem Ok.runs_joined {t : UtxoSet} (h : Ok s) (hj : s.join_flush = (.ok (), t)) (hw : JoinSafe s)
    (op : OutPoint) : probe_runs t.runs op = s.epochs_answer op := by
  have same := run_worker_same s
  rcases join_flush_cases hj with ⟨hn, rfl⟩ | ⟨job, hwj, hl⟩ | ⟨job, layer, hwj, hl, hres⟩
  · have hidle := (h.join_flush hj).idle
    rw [epochs_answer, hidle]
  · have := h.run_worker.1.layers.job_layer
    rw [hwj, same.flushing, hl] at this
    cases this
  · obtain ⟨old, ho, h1, h2, h3, h4, h5⟩ := run_worker_job hwj
    rcases hres with ⟨epoch, hr, rfl⟩ | ⟨hr, rfl⟩
    · obtain ⟨seq, hseq, hep⟩ := h.run_worker.1.layers.job_epoch job epoch hwj hr
      have hwin := hw old seq ho (h5.trans hseq)
      rw [h1, h2, h3, h4] at hwin
      rw [probe_runs_append, hep, probe_write_epoch hwin, same.runs, epochs_answer, ho, ← h1]
      simp [h5.trans hseq]
    · obtain ⟨be, hb⟩ := Option.isSome_iff_exists.mp
        (h.run_worker.1.layers.job_backend (by rw [hwj]; rfl))
      obtain ⟨hep, -⟩ := h.run_worker.1.layers.job_commit job be hwj hr hb
      obtain ⟨clean, hclean⟩ := promote_warm_eq
        { s.run_worker with
          flush_join := none, flushing := none
          flat := s.run_worker.flat.map fun f => applyDelta f layer.snap } layer.warm
      rw [hclean, epochs_answer, ho, same.runs]
      simp [h5.trans hep]

theorem Ok.flush_partial_ok (h : Ok s) (hs : s.Settles) : ∃ t, s.flush_partial_to_backend = (.ok (), t) := by
  unfold UtxoSet.flush_partial_to_backend
  split
  · exact ⟨s, rfl⟩
  obtain ⟨j, hj⟩ := h.join_flush_ok hs.toAccepted
  rw [hj]
  dsimp only
  split
  · exact ⟨j, rfl⟩
  · rename_i be _
    obtain ⟨be', hc⟩ := be.commit_partial_ok j.map
    rw [hc]
    exact ⟨_, rfl⟩

theorem Ok.flush_partial_get {t : UtxoSet} (h : Ok s) (hs : s.Settles) (hb : s.backend.isSome)
    (hf : s.flush_partial_to_backend = (.ok (), t)) :
    t.get = s.get ↔ s.PartialSafe := by
  rcases h.flush_partial_to_backend hf with ⟨hn, -⟩ | ⟨-, j, hj, -, hget⟩
  · rw [hn] at hb
    cases hb
  have hruns := h.runs_joined hj hs.windowed
  have hmap : ∀ op e, s.map.lookup op = some e → s.get op = e := by
    intro op e hop
    rw [h.get_eq, overlaid_of_lookup _ hop]
  constructor
  · intro he op e hit hop hhit
    have := congrFun he op
    rw [hget, hop, hmap op e hop, hruns, hhit] at this
    exact this
  · intro hsafe
    funext op
    rw [hget]
    cases hop : s.map.lookup op with
    | none => exact congrFun ((h.join_flush hj).get hs.windowed) op
    | some e =>
      rw [hmap op e hop, hruns]
      cases hhit : s.epochs_answer op with
      | none => rfl
      | some hit => exact hsafe op e hit hop hhit

theorem Ok.flush_owned_ok (h : Ok s) (hs : s.Settles) (undos : List UndoRow) (tip : ℕ) :
    ∃ t, s.flush_to_backend_owned undos tip = (.ok (), t) := by
  unfold UtxoSet.flush_to_backend_owned
  split
  · exact ⟨s, rfl⟩
  · obtain ⟨j, hj⟩ := h.join_flush_ok hs.toAccepted
    rw [hj]
    exact ⟨_, rfl⟩

theorem Ok.flush_ok (h : Ok s) (hs : s.Settles) (undos : List UndoRow) (tip : ℕ) :
    ∃ t, s.flush_to_backend undos tip = (.ok (), t) := by
  unfold UtxoSet.flush_to_backend
  split
  · exact ⟨s, rfl⟩
  · obtain ⟨j, hj⟩ := h.join_flush_ok hs.toAccepted
    have hjoin := h.join_flush hj
    rw [hj]
    exact hjoin.ok.flush_owned_ok (.of_idle hjoin.idle) undos tip

end UtxoSet

theorem SafeStep.effect {s t : UtxoSet} {o : CoinOp} (h : Ok s) (hst : SafeStep s o t) :
    s.apply o = (.ok (), t) ∧ Ok t ∧ t.get = o.effect s.get := by
  obtain ⟨hs, rfl⟩ := hst
  have hok : ∃ t, s.apply o = (.ok (), t) := by
    cases o with
    | put op e => exact ⟨_, rfl⟩
    | spend_coin op => exact ⟨_, rfl⟩
    | remove_entry op => exact ⟨_, rfl⟩
    | read op => exact ⟨_, rfl⟩
    | commit_lands => exact ⟨_, rfl⟩
    | flush_to_backend undos tip => exact h.flush_ok hs undos tip
    | flush_to_backend_owned undos tip => exact h.flush_owned_ok hs undos tip
    | join_flush => exact h.join_flush_ok hs.toAccepted
    | flush_partial_to_backend => exact h.flush_partial_ok hs.1
  obtain ⟨t, ht⟩ := hok
  rw [ht]
  refine ⟨rfl, h.apply ht, ?_⟩
  cases o with
  | put op e =>
    cases ht
    exact h.get_put op e
  | spend_coin op =>
    cases ht
    exact (h.spend op).2
  | remove_entry op =>
    cases ht
    exact (h.remove_entry op).2
  | read op =>
    cases ht
    exact (h.note_read (.none s) op).2.1
  | commit_lands =>
    cases ht
    exact h.get_run_worker
  | flush_to_backend undos tip => exact (h.flush_to_backend ht).2 hs.windowed
  | flush_to_backend_owned undos tip => exact (h.flush_to_backend_owned ht).2 hs.windowed
  | join_flush => exact (h.join_flush ht).get hs.windowed
  | flush_partial_to_backend =>
    rcases h.flush_partial_to_backend ht with ⟨-, rfl⟩ | ⟨hb, -⟩
    · rfl
    · exact (h.flush_partial_get hs.1 hb ht).mpr hs.2

end

section

attribute [local instance] Platform.sample

def sample_runs_set : UtxoSet :=
  (new.attach_backend .empty).enable_runs
    [write_epoch 0 1 1 ((∅ : Delta OutPoint Coin).insert sample_outpoint (some sample_coin)) []]

theorem sample_runs_set_reachable : Reachable sample_runs_set := by
  refine .enable_runs _ (.attach_backend .empty .new rfl rfl fun _ h => ?_) rfl rfl rfl (fun l hl => ?_)
    fun _ h => ?_
  · cases h
  · rw [List.mem_singleton.mp hl]
    exact write_epoch_wf _ _ _ _ _
  · cases h

end

end AvilaNode
