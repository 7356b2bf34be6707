import Mathlib.Algebra.GroupWithZero.Nat
import Mathlib.Data.List.Perm.Subperm
import Mathlib.Data.List.Sort
import Mathlib.Order.Nat

/-! Workers that take numbered jobs from one counter, in any order of their steps. -/

namespace AvilaNode

abbrev Job (ε α : Type) := ℕ → Option (Except ε α)

inductive WorkerPhase where
  | Idle
  | Busy (job : ℕ)
  | Ended
  | Lost
deriving DecidableEq, Repr

structure Worker (ε α : Type) where
  phase : WorkerPhase
  mine : List (ℕ × Except ε α)

structure Pool (ε α : Type) where
  next : ℕ
  workers : List (Worker ε α)

namespace Pool

variable {ε α : Type}

def start (threads : ℕ) : Pool ε α := ⟨0, List.replicate threads ⟨.Idle, []⟩⟩

/-- One worker's step: it asks for a job, or is through with one. A failure leaves no jobs to ask for. -/
inductive Step (run : Job ε α) (n : ℕ) : Pool ε α → Pool ε α → Prop
  | claim {next : ℕ} {mine : List (ℕ × Except ε α)} {before after : List (Worker ε α)} (h : next < n) :
    Step run n ⟨next, before ++ ⟨.Idle, mine⟩ :: after⟩ ⟨next + 1, before ++ ⟨.Busy next, mine⟩ :: after⟩
  | stop {next : ℕ} {mine : List (ℕ × Except ε α)} {before after : List (Worker ε α)} (h : n ≤ next) :
    Step run n ⟨next, before ++ ⟨.Idle, mine⟩ :: after⟩ ⟨next + 1, before ++ ⟨.Ended, mine⟩ :: after⟩
  | finish {next j : ℕ} {a : α} {mine : List (ℕ × Except ε α)} {before after : List (Worker ε α)}
    (h : run j = some (.ok a)) :
    Step run n ⟨next, before ++ ⟨.Busy j, mine⟩ :: after⟩ ⟨next, before ++ ⟨.Idle, mine ++ [(j, .ok a)]⟩ :: after⟩
  | fail {next j : ℕ} {e : ε} {mine : List (ℕ × Except ε α)} {before after : List (Worker ε α)}
    (h : run j = some (.error e)) :
    Step run n ⟨next, before ++ ⟨.Busy j, mine⟩ :: after⟩ ⟨n, before ++ ⟨.Ended, mine ++ [(j, .error e)]⟩ :: after⟩
  | lose {next j : ℕ} {mine : List (ℕ × Except ε α)} {before after : List (Worker ε α)} (h : run j = none) :
    Step run n ⟨next, before ++ ⟨.Busy j, mine⟩ :: after⟩ ⟨next, before ++ ⟨.Lost, []⟩ :: after⟩

def Complete (pool : Pool ε α) : Prop := ∀ w ∈ pool.workers, w.phase = .Ended ∨ w.phase = .Lost

def done (pool : Pool ε α) : List (ℕ × Except ε α) := pool.workers.flatMap Worker.mine

def Taken (run : Job ε α) (n threads : ℕ) (results : List (ℕ × Except ε α)) : Prop :=
  ∃ pool, Relation.ReflTransGen (Step run n) (start threads) pool ∧ pool.Complete ∧ pool.done = results

end Pool

namespace Worker

variable {ε α : Type}

def jobs (w : Worker ε α) : List ℕ :=
  w.mine.map Prod.fst ++ match w.phase with
    | .Busy j => [j]
    | _ => []

def weight (w : Worker ε α) : ℕ :=
  match w.phase with
  | .Idle => 1
  | .Busy _ => 2
  | _ => 0

end Worker

namespace Pool

variable {ε α : Type} {run : Job ε α} {n : ℕ}

def jobs (pool : Pool ε α) : List ℕ := pool.workers.flatMap Worker.jobs

structure Sound (run : Job ε α) (n : ℕ) (pool : Pool ε α) : Prop where
  nodup : pool.jobs.Nodup
  below : ∀ j ∈ pool.jobs, j < pool.next ∧ j < n
  results : ∀ p ∈ pool.done, run p.1 = some p.2
  ended : (∃ w ∈ pool.workers, w.phase = .Ended) → n ≤ pool.next
  all (hrun : ∀ j < n, ∃ a, run j = some (.ok a)) : (∀ j < n, j < pool.next → j ∈ pool.jobs) ∧
    ∀ w ∈ pool.workers, w.phase ≠ .Lost

theorem sound_start (threads : ℕ) : (start threads : Pool ε α).Sound run n := by
  have hjobs : (start threads : Pool ε α).jobs = [] := by
    rw [jobs, List.flatMap_eq_nil_iff]
    intro w hw
    rw [List.eq_of_mem_replicate hw]
    rfl
  have hidle : ∀ w ∈ (start threads : Pool ε α).workers, w = ⟨.Idle, []⟩ := fun w hw => List.eq_of_mem_replicate hw
  refine ⟨by rw [hjobs]; exact List.nodup_nil, by rw [hjobs]; simp, ?_, ?_, fun _ => ⟨?_, ?_⟩⟩
  · intro p hp
    obtain ⟨w, hw, hmem⟩ := List.mem_flatMap.mp hp
    rw [hidle w hw] at hmem
    cases hmem
  · rintro ⟨w, hw, hphase⟩
    rw [hidle w hw] at hphase
    cases hphase
  · intro j _ hj
    cases hj
  · intro w hw hphase
    rw [hidle w hw] at hphase
    cases hphase

theorem jobs_mid (next : ℕ) (before after : List (Worker ε α)) (w : Worker ε α) :
    (⟨next, before ++ w :: after⟩ : Pool ε α).jobs =
      before.flatMap Worker.jobs ++ (w.jobs ++ after.flatMap Worker.jobs) := by
  rw [jobs, List.flatMap_append, List.flatMap_cons]

theorem done_mid (next : ℕ) (before after : List (Worker ε α)) (w : Worker ε α) :
    (⟨next, before ++ w :: after⟩ : Pool ε α).done =
      before.flatMap Worker.mine ++ (w.mine ++ after.flatMap Worker.mine) := by
  rw [done, List.flatMap_append, List.flatMap_cons]

variable {next next' threads : ℕ}

variable {before after : List (Worker ε α)} {w w' : Worker ε α}

theorem jobs_same (h : w'.jobs = w.jobs) :
    (⟨next', before ++ w' :: after⟩ : Pool ε α).jobs = (⟨next, before ++ w :: after⟩ : Pool ε α).jobs := by
  rw [jobs_mid, jobs_mid, h]

variable {mine : List (ℕ × Except ε α)} {phase phase' : WorkerPhase}

theorem done_same :
    (⟨next', before ++ ⟨phase', mine⟩ :: after⟩ : Pool ε α).done =
      (⟨next, before ++ ⟨phase, mine⟩ :: after⟩ : Pool ε α).done := by
  rw [done_mid, done_mid]

theorem workers_mid {P : Worker ε α → Prop} (h : ∀ v ∈ before ++ w :: after, P v) (hw : P w') :
    ∀ v ∈ before ++ w' :: after, P v := by
  intro v hv
  rcases List.mem_append.mp hv with hv | hv
  · exact h v (List.mem_append_left _ hv)
  · rcases List.mem_cons.mp hv with rfl | hv
    · exact hw
    · exact h v (List.mem_append_right _ (List.mem_cons_of_mem _ hv))

theorem ended_mid (hw : w'.phase ≠ .Ended) (h : ∃ v ∈ before ++ w' :: after, v.phase = .Ended) :
    ∃ v ∈ before ++ w :: after, v.phase = .Ended := by
  obtain ⟨v, hv, hphase⟩ := h
  rcases List.mem_append.mp hv with hv | hv
  · exact ⟨v, List.mem_append_left _ hv, hphase⟩
  · rcases List.mem_cons.mp hv with rfl | hv
    · exact absurd hphase hw
    · exact ⟨v, List.mem_append_right _ (List.mem_cons_of_mem _ hv), hphase⟩

theorem results_mid {p : ℕ × Except ε α}
    (h : ∀ q ∈ (⟨next, before ++ ⟨phase, mine⟩ :: after⟩ : Pool ε α).done, run q.1 = some q.2)
    (hp : run p.1 = some p.2) :
    ∀ q ∈ (⟨next', before ++ ⟨phase', mine ++ [p]⟩ :: after⟩ : Pool ε α).done, run q.1 = some q.2 := by
  rw [done_mid] at h ⊢
  intro q hq
  simp only [List.mem_append, List.mem_singleton] at hq h
  rcases hq with hq | (hq | rfl) | hq
  · exact h q (Or.inl hq)
  · exact h q (Or.inr (Or.inl hq))
  · exact hp
  · exact h q (Or.inr (Or.inr hq))

variable {pool pool' : Pool ε α}

theorem Sound.step (hs : pool.Sound run n) (h : Step run n pool pool') :
    pool'.Sound run n := by
  have hmem (pool : Pool ε α) (hs : pool.Sound run n) (before after : List (Worker ε α)) (w : Worker ε α) (j : ℕ)
      (hw : pool.workers = before ++ w :: after) (hj : j ∈ w.jobs) : j < n :=
    (hs.below j (List.mem_flatMap.mpr ⟨w, by rw [hw]; simp, hj⟩)).2
  have hfails (j : ℕ) (hj : j < n) (hbad : ∀ a, run j ≠ some (.ok a)) (hrun : ∀ j < n, ∃ a, run j = some (.ok a)) :
      False := by
    obtain ⟨a, ha⟩ := hrun j hj
    exact hbad a ha
  cases h with
  | @claim next mine before after hlt =>
    have hjobs : (⟨next + 1, before ++ ⟨.Busy next, mine⟩ :: after⟩ : Pool ε α).jobs.Perm
        (next :: (⟨next, before ++ ⟨.Idle, mine⟩ :: after⟩ : Pool ε α).jobs) := by
      rw [jobs_mid, jobs_mid, Worker.jobs, Worker.jobs, List.append_nil, List.append_assoc, ← List.append_assoc,
        ← List.append_assoc (before.flatMap Worker.jobs) (mine.map Prod.fst)]
      exact List.perm_middle
    refine ⟨?_, ?_, by rw [done_same]; exact hs.results, ?_, ?_⟩
    · refine hjobs.nodup_iff.mpr (List.nodup_cons.mpr ⟨fun hin => ?_, hs.nodup⟩)
      exact absurd (hs.below next hin).1 (Nat.lt_irrefl _)
    · intro j hj
      rcases List.mem_cons.mp (hjobs.mem_iff.mp hj) with rfl | hj
      · exact ⟨Nat.lt_succ_self _, hlt⟩
      · exact ⟨(hs.below j hj).1.trans (Nat.lt_succ_self _), (hs.below j hj).2⟩
    · intro hended
      exact (hs.ended (ended_mid (by simp) hended)).trans (Nat.le_succ _)
    · intro hrun
      obtain ⟨hall, hlost⟩ := hs.all hrun
      refine ⟨fun j hj hnext => hjobs.mem_iff.mpr ?_, workers_mid hlost (by simp)⟩
      rcases Nat.lt_succ_iff_lt_or_eq.mp hnext with hnext | rfl
      · exact List.mem_cons_of_mem _ (hall j hj hnext)
      · exact List.mem_cons_self
  | @stop next mine before after hle =>
    have hjobs := @jobs_same _ _ next (next + 1) before after ⟨.Idle, mine⟩ ⟨.Ended, mine⟩ rfl
    refine ⟨by rw [hjobs]; exact hs.nodup, ?_, by rw [done_same]; exact hs.results, fun _ =>
      hle.trans (Nat.le_succ _), ?_⟩
    · rw [hjobs]
      exact fun j hj => ⟨(hs.below j hj).1.trans (Nat.lt_succ_self _), (hs.below j hj).2⟩
    · intro hrun
      obtain ⟨hall, hlost⟩ := hs.all hrun
      rw [hjobs]
      exact ⟨fun j hj _ => hall j hj (hj.trans_le hle), workers_mid hlost (by simp)⟩
  | @finish next j a mine before after hok =>
    have hjobs := @jobs_same _ _ next next before after ⟨.Busy j, mine⟩
      ⟨.Idle, mine ++ [(j, .ok a)]⟩ (by simp [Worker.jobs])
    refine ⟨by rw [hjobs]; exact hs.nodup, by rw [hjobs]; exact hs.below, results_mid hs.results hok, ?_, ?_⟩
    · exact fun hended => hs.ended (ended_mid (by simp) hended)
    · intro hrun
      obtain ⟨hall, hlost⟩ := hs.all hrun
      rw [hjobs]
      exact ⟨hall, workers_mid hlost (by simp)⟩
  | @fail next j e mine before after herr =>
    have hjobs := @jobs_same _ _ next n before after ⟨.Busy j, mine⟩
      ⟨.Ended, mine ++ [(j, .error e)]⟩ (by simp [Worker.jobs])
    have hj := hmem _ hs before after ⟨.Busy j, mine⟩ j rfl (by simp [Worker.jobs])
    refine ⟨by rw [hjobs]; exact hs.nodup, ?_, results_mid hs.results herr, fun _ => le_rfl, fun hrun => ?_⟩
    · rw [hjobs]
      exact fun i hi => ⟨(hs.below i hi).2, (hs.below i hi).2⟩
    · exact (hfails j hj (by simp [herr]) hrun).elim
  | @lose next j mine before after hnone =>
    have hj := hmem _ hs before after ⟨.Busy j, mine⟩ j rfl (by simp [Worker.jobs])
    have hsub : (⟨next, before ++ ⟨.Lost, []⟩ :: after⟩ : Pool ε α).jobs.Sublist
        (⟨next, before ++ ⟨.Busy j, mine⟩ :: after⟩ : Pool ε α).jobs := by
      rw [jobs_mid, jobs_mid]
      exact (List.Sublist.refl _).append (List.sublist_append_right _ _)
    refine ⟨hs.nodup.sublist hsub, fun i hi => hs.below i (hsub.subset hi), ?_, ?_, fun hrun => ?_⟩
    · intro p hp
      refine hs.results p ?_
      rw [done_mid] at hp ⊢
      simp only [List.mem_append, List.nil_append] at hp ⊢
      rcases hp with hp | hp
      · exact Or.inl hp
      · exact Or.inr (Or.inr hp)
    · exact fun hended => hs.ended (ended_mid (by simp) hended)
    · exact (hfails j hj (by simp [hnone]) hrun).elim

theorem Sound.reach (hs : pool.Sound run n) (h : Relation.ReflTransGen (Step run n) pool pool') :
    pool'.Sound run n := by
  induction h with
  | refl => exact hs
  | tail _ hstep ih => exact ih.step hstep

theorem Step.workers_ne (h : Step run n pool pool') : pool'.workers ≠ [] := by
  cases h <;> simp

theorem reach_workers (hthreads : 0 < threads) (h : Relation.ReflTransGen (Step run n) (start threads) pool) :
    pool.workers ≠ [] := by
  induction h with
  | refl =>
    intro hnil
    have hlen : (start threads : Pool ε α).workers.length = threads := List.length_replicate
    rw [hnil] at hlen
    exact hthreads.ne hlen
  | tail _ hstep _ => exact hstep.workers_ne

theorem jobs_complete (h : pool.Complete) : pool.jobs = pool.done.map Prod.fst := by
  rw [jobs, done, List.map_flatMap]
  refine List.flatMap_congr fun w hw => ?_
  rw [Worker.jobs]
  rcases h w hw with hphase | hphase <;> rw [hphase, List.append_nil]

variable {results : List (ℕ × Except ε α)}

theorem Taken.spec (hthreads : 0 < threads) (h : Taken run n threads results) :
    (results.map Prod.fst).Nodup ∧
      (∀ p ∈ results, p.1 < n ∧ run p.1 = some p.2) ∧
      ((∀ j < n, ∃ a, run j = some (.ok a)) → ∀ j < n, j ∈ results.map Prod.fst) := by
  obtain ⟨pool, hreach, hcomplete, rfl⟩ := h
  have hs := (@sound_start _ _ run n threads).reach hreach
  have hjobs := jobs_complete hcomplete
  refine ⟨hjobs ▸ hs.nodup, ?_, ?_⟩
  · intro p hp
    exact ⟨(hs.below p.1 (hjobs ▸ List.mem_map_of_mem hp)).2, hs.results p hp⟩
  · intro hrun j hj
    obtain ⟨hall, hlost⟩ := hs.all hrun
    obtain ⟨w, hw⟩ := List.exists_mem_of_ne_nil _ (reach_workers hthreads hreach)
    rw [← hjobs]
    refine hall j hj (hj.trans_le (hs.ended ⟨w, hw, ?_⟩))
    exact (hcomplete w hw).resolve_right (hlost w hw)

theorem Taken.perm (hthreads : 0 < threads) (h : Taken run n threads results) (hlen : results.length = n) :
    (results.map Prod.fst).Perm (List.range n) := by
  obtain ⟨hnodup, hbelow, -⟩ := h.spec hthreads
  have hsub : results.map Prod.fst ⊆ List.range n := by
    intro j hj
    obtain ⟨p, hp, rfl⟩ := List.mem_map.mp hj
    exact List.mem_range.mpr (hbelow p hp).1
  refine (hnodup.subperm hsub).perm_of_length_le ?_
  rw [List.length_range, List.length_map, hlen]

theorem Taken.length (hthreads : 0 < threads) (h : Taken run n threads results)
    (hrun : ∀ j < n, ∃ a, run j = some (.ok a)) : results.length = n := by
  obtain ⟨hnodup, hbelow, hall⟩ := h.spec hthreads
  have hperm : (results.map Prod.fst).Perm (List.range n) := by
    refine (List.perm_ext_iff_of_nodup hnodup List.nodup_range).mpr fun j => ?_
    rw [List.mem_range]
    refine ⟨fun hj => ?_, hall hrun j⟩
    obtain ⟨p, hp, rfl⟩ := List.mem_map.mp hj
    exact (hbelow p hp).1
  rw [← List.length_range (n := n), ← hperm.length_eq, List.length_map]

def in_order (results : List (ℕ × Except ε α)) : List (ℕ × Except ε α) := results.insertionSort fun p q => p.1 ≤ q.1

theorem Taken.in_order (hthreads : 0 < threads) (h : Taken run n threads results) (hlen : results.length = n) :
    (in_order results).map Prod.fst = List.range n ∧ ∀ p ∈ in_order results, run p.1 = some p.2 := by
  have : Std.Total fun p q : ℕ × Except ε α => p.1 ≤ q.1 := ⟨fun p q => le_total p.1 q.1⟩
  have : IsTrans (ℕ × Except ε α) fun p q => p.1 ≤ q.1 := ⟨fun _ _ _ => le_trans⟩
  have hperm : (Pool.in_order results).Perm results := List.perm_insertionSort _ _
  constructor
  · have hsorted : ((Pool.in_order results).map Prod.fst).Pairwise (· ≤ ·) :=
      List.pairwise_map.mpr (List.pairwise_insertionSort (fun p q : ℕ × Except ε α => p.1 ≤ q.1) results)
    have hrange : (List.range n).Pairwise (· ≤ ·) := List.pairwise_lt_range.imp le_of_lt
    exact ((hperm.map Prod.fst).trans (h.perm hthreads hlen)).eq_of_pairwise' hsorted hrange
  · exact fun p hp => ((h.spec hthreads).2.1 p (hperm.mem_iff.mp hp)).2

def weight (n : ℕ) (pool : Pool ε α) : ℕ := 2 * (n - pool.next) + (pool.workers.map Worker.weight).sum

theorem step_exists (h : ¬pool.Complete) :
    ∃ pool', Step run n pool pool' ∧ pool'.weight n < pool.weight n := by
  rw [Complete] at h
  push Not at h
  obtain ⟨w, hw, hended, hlost⟩ := h
  obtain ⟨next, workers⟩ := pool
  obtain ⟨before, after, rfl⟩ := List.append_of_mem hw
  obtain ⟨phase, mine⟩ := w
  cases phase with
  | Idle =>
    by_cases hlt : next < n
    · refine ⟨_, .claim hlt, ?_⟩
      simp only [weight, List.map_append, List.map_cons, List.sum_append, List.sum_cons, Worker.weight]
      omega
    · refine ⟨_, .stop (Nat.le_of_not_lt hlt), ?_⟩
      simp only [weight, List.map_append, List.map_cons, List.sum_append, List.sum_cons, Worker.weight]
      omega
  | Busy j =>
    cases hrun : run j with
    | none =>
      refine ⟨_, .lose hrun, ?_⟩
      simp only [weight, List.map_append, List.map_cons, List.sum_append, List.sum_cons, Worker.weight]
      omega
    | some result =>
      cases result with
      | ok a =>
        refine ⟨_, .finish hrun, ?_⟩
        simp only [weight, List.map_append, List.map_cons, List.sum_append, List.sum_cons, Worker.weight]
        omega
      | error e =>
        refine ⟨_, .fail hrun, ?_⟩
        simp only [weight, List.map_append, List.map_cons, List.sum_append, List.sum_cons, Worker.weight]
        omega
  | Ended => exact absurd rfl hended
  | Lost => exact absurd rfl hlost

theorem taken_exists (run : Job ε α) (n threads : ℕ) : ∃ results, Taken run n threads results := by
  have hreach (k : ℕ) (pool : Pool ε α) (hk : pool.weight n ≤ k) :
      ∃ pool', Relation.ReflTransGen (Step run n) pool pool' ∧ pool'.Complete := by
    induction k generalizing pool with
    | zero =>
      by_cases h : pool.Complete
      · exact ⟨pool, .refl, h⟩
      · obtain ⟨pool', -, hlt⟩ := @step_exists _ _ run n pool h
        omega
    | succ k ih =>
      by_cases h : pool.Complete
      · exact ⟨pool, .refl, h⟩
      · obtain ⟨pool', hstep, hlt⟩ := @step_exists _ _ run n pool h
        obtain ⟨last, hlast, hcomplete⟩ := ih pool' (by omega)
        exact ⟨last, .head hstep hlast, hcomplete⟩
  obtain ⟨pool, hpool, hcomplete⟩ := hreach _ (start threads) le_rfl
  exact ⟨pool.done, pool, hpool, hcomplete, rfl⟩

end Pool

end AvilaNode
