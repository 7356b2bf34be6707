import AvilaNode.UtxoSet

/-! What a layered set shows, the invariant its layers keep, and the effect of each write. -/

namespace AvilaNode

open Layers

namespace UtxoSet

def committed (s : UtxoSet) (op : OutPoint) : Option Coin :=
  match s.flat with
  | some f => f.lookup op
  | none =>
    match s.backend with
    | some be => be.get op
    | none => s.snapshot.bind fun run => run.lookup op

def committed_have (s : UtxoSet) (op : OutPoint) : Bool :=
  match s.flat with
  | some f => (f.lookup op).isSome
  | none => (s.backend.any fun be => be.have_ op) || (s.snapshot.any fun run => (run.lookup op).isSome)

variable {s : UtxoSet} {op : OutPoint}

theorem have_committed (h : s.committed_have op = false) : s.committed op = none := by
  unfold committed_have at h
  unfold committed
  cases hf : s.flat with
  | some f => simpa [hf] using h
  | none =>
    rw [hf] at h
    cases hb : s.backend with
    | some be =>
      rw [hb] at h
      simp only [Option.any_some, Bool.or_eq_false_iff, CoinsBackend.have_, Option.isSome_eq_false_iff,
        Option.isNone_iff_eq_none] at h
      exact h.1
    | none =>
      rw [hb] at h
      cases hs : s.snapshot with
      | none => rfl
      | some run => simpa [hs] using h

def PrefetchOk (s : UtxoSet) (p : Option (Delta OutPoint Coin)) : Prop :=
  ∀ be rows, s.backend = some be → p = some rows → ∀ op e, rows.lookup op = some e → be.get op = e

theorem PrefetchOk.none (s : UtxoSet) : s.PrefetchOk none := by
  intro _ _ _ h
  cases h

variable [Platform]

def upper (s : UtxoSet) (op : OutPoint) : Option (Option Coin) :=
  match s.base with
  | some b => some (b.get op)
  | none => probe_runs s.runs op

def under (s : UtxoSet) (op : OutPoint) : Option Coin :=
  match snap_lookup s.flushing op with
  | some entry => entry
  | none => (s.upper op).getD (s.committed op)

theorem under_eq (s : UtxoSet) (op : OutPoint) :
    s.under op = (snap_lookup s.flushing op).getD ((s.upper op).getD (s.committed op)) := by
  unfold under
  cases snap_lookup s.flushing op <;> rfl

structure LayersOk (s : UtxoSet) : Prop where
  clean_backend : ∀ op c, s.clean.get op = some c →
    s.map.lookup op = none ∧ snap_lookup s.flushing op = none ∧ ∃ be, s.backend = some be ∧ be.get op = some c
  warm_map : ∀ op c, s.warm.get op = some c → s.map.lookup op = some (some c)
  warm_snap : ∀ layer, s.flushing = some layer →
    ∀ op c, layer.warm.get op = some c → layer.snap.lookup op = some (some c)
  born_under : ∀ op ∈ s.born, (s.map.lookup op).isSome ∧ s.under op = none
  flat_backend : ∀ f be op c, s.flat = some f → s.backend = some be → be.get op = some c →
    f.lookup op = some c ∨ ∃ job, s.flush_join = some job ∧ job.epoch = none ∧ (job.snap.lookup op).isSome
  overlay_bare : ∀ b, s.base = some b → s.backend = none ∧ s.flat = none ∧ s.snapshot = none ∧
    s.runs = [] ∧ s.flushing = none
  runs_wf : ∀ l ∈ s.runs, l.Wf
  job_layer : s.flush_join.map FlushJob.snap = s.flushing.map FlushLayer.snap
  job_backend : s.flush_join.isSome → s.backend.isSome
  job_runs : ∀ job, s.flush_join = some job → job.epoch = none → s.runs = []
  job_commit : ∀ job be, s.flush_join = some job → job.result = some (.ok none) → s.backend = some be →
    job.epoch = none ∧ ∀ op e, job.snap.lookup op = some e → be.get op = e
  job_epoch : ∀ job epoch, s.flush_join = some job → job.result = some (.ok (some epoch)) →
    ∃ seq, job.epoch = some seq ∧ epoch = write_epoch seq job.tip job.delta job.snap job.undos
  epoch_dir : ∀ job seq, s.flush_join = some job → job.epoch = some seq → s.runs_dir = true
  runs_dir_of : s.runs ≠ [] → s.runs_dir = true

inductive Ok : UtxoSet → Prop
  | intro (s : UtxoSet) (layers : LayersOk s) (base : ∀ b, s.base = some b → Ok b) : Ok s

theorem Ok.layers (h : Ok s) : LayersOk s := by
  cases h with
  | intro _ layers _ => exact layers

theorem Ok.base {b : UtxoSet} (h : Ok s) (hb : s.base = some b) : Ok b := by
  cases h with
  | intro _ _ base => exact base b hb

variable {p : Option (Delta OutPoint Coin)}

theorem LayersOk.backend_get_eq (h : LayersOk s) {be : CoinsBackend} (hb : s.backend = some be) (hp : s.PrefetchOk p)
    (op : OutPoint) :
    backend_get be s.clean op p = be.get op := by
  unfold backend_get
  split
  · rename_i c hc
    unfold clean_get at hc
    split at hc
    · obtain ⟨-, -, be', hb', hg⟩ := h.clean_backend op c hc
      rw [hb] at hb'
      cases hb'
      exact hg.symm
    · cases hc
  · cases p with
    | none => rfl
    | some rows =>
      cases hr : rows.lookup op with
      | none => simp [hr]
      | some e => simpa [hr] using (hp be rows hb rfl op e hr).symm

theorem get_with_prefetched_of_layers (h : LayersOk s) (hp : s.PrefetchOk p) (op : OutPoint) :
    s.get_with_prefetched op p = overlaid s.map s.under op := by
  have hbe : ∀ be, s.backend = some be → backend_get be s.clean op p = be.get op :=
    fun be hb => h.backend_get_eq hb hp op
  unfold overlaid under upper committed
  obtain ⟨map, base, backend, snapshot, _, _, _, _, flat, flushing, _, runs, _, _, clean, _⟩ := s
  rw [get_with_prefetched.eq_def]
  dsimp only at hbe ⊢
  cases map.lookup op with
  | some e => rfl
  | none =>
    cases snap_lookup flushing op with
    | some e => rfl
    | none =>
      cases base with
      | some b => rfl
      | none =>
        cases probe_runs runs op with
        | some hit => rfl
        | none =>
          cases flat with
          | some f => rfl
          | none =>
            cases backend with
            | some be => exact hbe be rfl
            | none => cases snapshot <;> rfl

theorem get_of_layers (h : LayersOk s) (op : OutPoint) : s.get op = overlaid s.map s.under op :=
  get_with_prefetched_of_layers h (.none s) op

theorem Ok.get_eq (h : Ok s) : s.get = overlaid s.map s.under :=
  funext fun op => get_of_layers h.layers op

theorem have_eq (s : UtxoSet) (op : OutPoint) : s.have_ op =
    match s.map.lookup op with
    | some entry => entry.isSome
    | none =>
      match snap_lookup s.flushing op with
      | some entry => entry.isSome
      | none =>
        match s.base with
        | some b => b.have_ op
        | none =>
          match probe_runs s.runs op with
          | some hit => hit.isSome
          | none => s.committed_have op := by
  obtain ⟨map, base, backend, snapshot, _, _, _, _, flat, flushing, _, runs, _, _, clean, _⟩ := s
  rw [have_.eq_def]
  rfl

theorem Ok.get_none_of_have (hs : Ok s) (h : s.have_ op = false) : s.get op = none := by
  induction hs with
  | intro s layers base ih =>
    rw [have_eq] at h
    rw [get_of_layers layers, overlaid]
    cases hm : s.map.lookup op with
    | some e => simpa [hm] using h
    | none =>
      rw [hm] at h
      rw [Option.getD_none, under]
      cases hf : snap_lookup s.flushing op with
      | some e => simpa [hf] using h
      | none =>
        rw [hf] at h
        cases hb : s.base with
        | some b =>
          rw [hb] at h
          simpa [upper, hb] using ih b hb h
        | none =>
          rw [hb] at h
          cases hp : probe_runs s.runs op with
          | some hit => simpa [upper, hb, hp] using h
          | none =>
            rw [hp] at h
            simpa [upper, hb, hp] using have_committed h

theorem Ok.under_none_of_lower_live (hs : Ok s) (h : s.lower_live op = false) : s.under op = none := by
  unfold lower_live at h
  unfold under
  cases hf : snap_lookup s.flushing op with
  | some e => simpa [hf] using h
  | none =>
    rw [hf] at h
    cases hb : s.base with
    | some b =>
      rw [hb] at h
      have hh : b.have_ op = false := by
        cases hh : b.have_ op with
        | false => rfl
        | true => simp [hh] at h
      simpa [upper, hb] using (hs.base hb).get_none_of_have hh
    | none =>
      rw [hb] at h
      simp only [Option.any_none, Bool.false_eq_true, if_false] at h
      cases hp : probe_runs s.runs op with
      | some hit => simpa [upper, hb, hp] using h
      | none =>
        rw [hp] at h
        have hc : s.committed op = none := by
          refine have_committed ?_
          unfold committed_have
          cases hfl : s.flat with
          | some f =>
            rw [hfl] at h
            simp only [Option.any_some, Bool.or_eq_false_iff] at h
            exact h.1.1
          | none => rw [hfl] at h; simpa using h
        simpa [upper, hb, hp] using hc

theorem lower_get_of_under (h : s.lower_get op = none) : s.under op = none := by
  unfold lower_get at h
  unfold under
  cases hf : snap_lookup s.flushing op with
  | some e => simpa [hf] using h
  | none =>
    rw [hf] at h
    cases hb : s.base with
    | some b =>
      cases hg : b.get op with
      | none => simp [upper, hb, hg]
      | some c => simp [hb, hg] at h
    | none =>
      rw [hb] at h
      simp only [Option.bind_none] at h
      cases hp : probe_runs s.runs op with
      | some hit => simpa [upper, hb, hp] using h
      | none =>
        rw [hp] at h
        simp only [Option.or_eq_none_iff] at h
        have hc : s.committed op = none := by
          unfold committed
          cases hfl : s.flat with
          | some f => simpa [hfl] using h.1
          | none =>
            cases hbe : s.backend with
            | some be => simpa [hbe] using h.2.1
            | none => exact h.2.2
        simpa [upper, hb, hp] using hc

theorem LayersOk.write (h : LayersOk s) (op : OutPoint) (m : Delta OutPoint Coin) (cl w : CleanCoinCache)
    (bn : Finset OutPoint) (mb : ℕ) (ld : ℤ) (hcl : ∀ k c, cl.get k = some c → k ≠ op ∧ s.clean.get k = some c)
    (hm : ∀ k, k ≠ op → m.lookup k = s.map.lookup k) (hw : ∀ k c, w.get k = some c → m.lookup k = some (some c))
    (hb : ∀ k ∈ bn, (m.lookup k).isSome ∧ s.under k = none) :
    LayersOk { s with map := m, clean := cl, warm := w, born := bn, map_bytes := mb, live_delta := ld } where
  clean_backend k c hk := by
    obtain ⟨hne, hc⟩ := hcl k c hk
    rw [hm k hne]
    exact h.clean_backend k c hc
  warm_map := hw
  warm_snap := h.warm_snap
  born_under := hb
  flat_backend := h.flat_backend
  overlay_bare := h.overlay_bare
  runs_wf := h.runs_wf
  job_layer := h.job_layer
  job_backend := h.job_backend
  job_runs := h.job_runs
  job_commit := h.job_commit
  job_epoch := h.job_epoch
  epoch_dir := h.epoch_dir
  runs_dir_of := h.runs_dir_of

theorem Ok.write (h : Ok s) (op : OutPoint) (m : Delta OutPoint Coin) (cl w : CleanCoinCache) (bn : Finset OutPoint)
    (mb : ℕ) (ld : ℤ) (hcl : ∀ k c, cl.get k = some c → k ≠ op ∧ s.clean.get k = some c)
    (hm : ∀ k, k ≠ op → m.lookup k = s.map.lookup k) (hw : ∀ k c, w.get k = some c → m.lookup k = some (some c))
    (hb : ∀ k ∈ bn, (m.lookup k).isSome ∧ s.under k = none) :
    Ok { s with map := m, clean := cl, warm := w, born := bn, map_bytes := mb, live_delta := ld } :=
  .intro _ (h.layers.write op m cl w bn mb ld hcl hm hw hb) fun _ => h.base

theorem Ok.forget (h : Ok s) (op : OutPoint) (m : Delta OutPoint Coin) (bn : Finset OutPoint) (mb : ℕ) (ld : ℤ)
    (hm : ∀ k, k ≠ op → m.lookup k = s.map.lookup k) (hb : ∀ k ∈ bn, (m.lookup k).isSome ∧ s.under k = none) :
    Ok { s with
      map := m, clean := s.clean.invalidate op, warm := s.warm.invalidate op, born := bn, map_bytes := mb,
      live_delta := ld } := by
  refine h.write op m _ _ bn mb ld (fun k c => CleanCoinCache.get_of_invalidate) hm (fun k c hk => ?_) hb
  obtain ⟨hne, hk⟩ := CleanCoinCache.get_of_invalidate hk
  rw [hm k hne]
  exact h.layers.warm_map k c hk

theorem born_now_lower {e : Option Coin} (h : s.born_now op e = true) : s.lower_live op = false := by
  rw [born_now, Bool.and_eq_true] at h
  have hl := h.2
  split at hl
  · cases hl
  · simpa using hl

theorem Ok.put (h : Ok s) (op : OutPoint) (e : Option Coin) : Ok (s.put op e) := by
  unfold UtxoSet.put put_raw
  refine h.write op _ _ _ _ _ _ (fun k c => CleanCoinCache.get_of_invalidate) (fun k hk => ?_) (fun k c hk => ?_)
    (fun k hk => ?_)
  · rw [lookup_insert_eq, if_neg hk]
  · have hold : ∀ c, (s.warm.invalidate op).get k = some c → (s.map.insert op e).lookup k = some (some c) := by
      intro c hc
      obtain ⟨hne, hc⟩ := CleanCoinCache.get_of_invalidate hc
      rw [lookup_insert_eq, if_neg hne]
      exact h.layers.warm_map k c hc
    split at hk
    · rename_i coin
      split at hk
      · rcases CleanCoinCache.get_insert hk with ⟨rfl, rfl⟩ | ⟨-, hc⟩
        · rw [lookup_insert_eq, if_pos rfl]
        · exact hold c hc
      · exact hold c hk
    · exact hold c hk
  · have hold : k ∈ s.born → ((s.map.insert op e).lookup k).isSome ∧ s.under k = none := by
      intro hk
      obtain ⟨hmap, hu⟩ := h.layers.born_under k hk
      refine ⟨?_, hu⟩
      rw [lookup_insert_eq]
      split
      · rfl
      · exact hmap
    by_cases hb : s.born_now op e = true
    · rw [if_pos hb] at hk
      rcases Finset.mem_insert.mp hk with rfl | hk
      · exact ⟨by simp, h.under_none_of_lower_live (born_now_lower hb)⟩
      · exact hold hk
    · rw [if_neg hb] at hk
      exact hold hk

theorem Ok.get_put (h : Ok s) (op : OutPoint) (e : Option Coin) : (s.put op e).get = Function.update s.get op e := by
  rw [(h.put op e).get_eq, h.get_eq, ← overlaid_insert]
  rfl

theorem Ok.get_write {t : UtxoSet} (h : Ok s) (ht : Ok t) (hu : t.under = s.under) (op : OutPoint) (e : Option Coin)
    (hm : ∀ k, k ≠ op → t.map.lookup k = s.map.lookup k) (he : (t.map.lookup op).getD (s.under op) = e) : t.get =
    Function.update s.get op e := by
  rw [ht.get_eq, h.get_eq, hu]
  funext k
  by_cases hk : k = op
  · subst hk
    simpa [overlaid] using he
  · simp [overlaid, hm k hk, hk]

theorem born_map_of (h : Ok s) {k : OutPoint} (hk : k ∈ s.born) (hne : k ≠ op) {m : Delta OutPoint Coin}
    (hm : ∀ k, k ≠ op → m.lookup k = s.map.lookup k) :
    (m.lookup k).isSome ∧ s.under k = none := by
  rw [hm k hne]
  exact h.layers.born_under k hk

theorem Ok.spend (h : Ok s) (op : OutPoint) :
    Ok (s.spend op).2 ∧ (s.spend op).2.get = Function.update s.get op none := by
  have herase : ∀ k, k ≠ op → (s.map.erase op).lookup k = s.map.lookup k :=
    fun k hk => by rw [lookup_erase_eq, if_neg hk]
  have hinsert : ∀ k, k ≠ op → (s.map.insert op none).lookup k = s.map.lookup k :=
    fun k hk => by rw [lookup_insert_eq, if_neg hk]
  have hborn : ∀ k ∈ s.born, ((s.map.insert op none).lookup k).isSome ∧ s.under k = none := by
    intro k hk
    obtain ⟨hmap, hu⟩ := h.layers.born_under k hk
    refine ⟨?_, hu⟩
    rw [lookup_insert_eq]
    split
    · rfl
    · exact hmap
  unfold UtxoSet.spend
  dsimp only
  cases hmap : s.map.lookup op with
  | some entry =>
    cases entry with
    | some c =>
      dsimp only
      split
      · rename_i hb
        have hok := h.forget op _ (s.born.erase op) (s.map_bytes - entry_bytes (some c)) (s.live_delta - 1) herase
          fun k hk => born_map_of h (Finset.mem_of_mem_erase hk) (Finset.ne_of_mem_erase hk) herase
        refine ⟨hok, h.get_write hok rfl op none herase ?_⟩
        simpa using (h.layers.born_under op hb).2
      · have hok := h.forget op _ _ (s.map_bytes - entry_bytes (some c)) (s.live_delta - 1) hinsert hborn
        exact ⟨hok, h.get_write hok rfl op none hinsert (by simp)⟩
    | none =>
      have hok := h.forget op _ _ (s.map_bytes - entry_bytes none) s.live_delta (fun _ _ => rfl) h.layers.born_under
      exact ⟨hok, h.get_write hok rfl op none (fun _ _ => rfl) (by simp [hmap])⟩
  | none =>
    dsimp only
    split
    · have hok := h.forget op _ _ (s.map_bytes + entry_bytes none) (s.live_delta - 1) hinsert hborn
      exact ⟨hok, h.get_write hok rfl op none hinsert (by simp)⟩
    rename_i hnone
    have hok := h.forget op _ _ s.map_bytes s.live_delta (fun _ _ => rfl) h.layers.born_under
    refine ⟨hok, h.get_write hok rfl op none (fun _ _ => rfl) ?_⟩
    have hl : s.lower_get op = none := (Option.or_eq_none_iff.mp hnone).2
    simpa [hmap] using lower_get_of_under hl

theorem Ok.remove_entry (h : Ok s) (op : OutPoint) :
    Ok (s.remove_entry op) ∧ (s.remove_entry op).get = Function.update s.get op none := by
  have hstep : ∃ t : UtxoSet, Ok t ∧ t.under = s.under ∧ (∀ k, k ≠ op → t.map.lookup k = s.map.lookup k) ∧
      t.map.lookup op = none ∧
      s.remove_entry op = if t.lower_live op then t.put_raw op none else t := by
    unfold UtxoSet.remove_entry
    dsimp only
    cases hmap : s.map.lookup op with
    | some old =>
      have herase : ∀ k, k ≠ op → (s.map.erase op).lookup k = s.map.lookup k :=
        fun k hk => by rw [lookup_erase_eq, if_neg hk]
      have hok := h.forget op _ (s.born.erase op) (s.map_bytes - entry_bytes old)
        (s.live_delta - (live old - liveb (s.lower_live op))) herase fun k hk =>
          born_map_of h (Finset.mem_of_mem_erase hk) (Finset.ne_of_mem_erase hk) herase
      exact ⟨_, hok, rfl, herase, by simp, rfl⟩
    | none =>
      have hok := h.forget op _ (s.born.erase op) s.map_bytes s.live_delta (fun _ _ => rfl) fun k hk =>
        h.layers.born_under k (Finset.mem_of_mem_erase hk)
      exact ⟨_, hok, rfl, fun _ _ => rfl, hmap, rfl⟩
  obtain ⟨t, ht, hu, hm, hop, he⟩ := hstep
  rw [he]
  split
  · refine ⟨ht.put op none, h.get_write (ht.put op none) ?_ op none (fun k hk => ?_) ?_⟩
    · exact hu
    · have hi : (t.map.insert op none).lookup k = t.map.lookup k := by rw [lookup_insert_eq, if_neg hk]
      exact hi.trans (hm k hk)
    · have hi : (t.map.insert op none).lookup op = some none := by simp
      exact congrArg (fun e => e.getD (s.under op)) hi
  · rename_i hl
    refine ⟨ht, h.get_write ht hu op none hm ?_⟩
    rw [hop, ← hu]
    exact ht.under_none_of_lower_live (by simpa using hl)

theorem note_read_cases (s : UtxoSet) (op : OutPoint) (p : Option (Delta OutPoint Coin)) :
    s.note_read op p = s ∨
      (∃ b, s.base = some b ∧ s.note_read op p = { s with base := some (b.note_read op none) }) ∨
      ∃ be coin, s.backend = some be ∧ s.map.lookup op = none ∧ snap_lookup s.flushing op = none ∧
        backend_get be s.clean op p = some coin ∧
        s.note_read op p = { s with clean := s.clean.insert op coin } := by
  obtain ⟨map, base, backend, snapshot, _, _, _, _, flat, flushing, _, runs, _, _, clean, _⟩ := s
  rw [note_read.eq_def]
  dsimp only
  cases hm : map.lookup op with
  | some e => exact Or.inl rfl
  | none =>
    cases hf : snap_lookup flushing op with
    | some e => exact Or.inl rfl
    | none =>
      cases base with
      | some b => exact Or.inr (Or.inl ⟨b, rfl, rfl⟩)
      | none =>
        cases probe_runs runs op with
        | some hit => exact Or.inl rfl
        | none =>
          cases flat with
          | some f => exact Or.inl rfl
          | none =>
            cases backend with
            | none => exact Or.inl rfl
            | some be =>
              cases hc : clean_get clean op with
              | some c => exact Or.inl rfl
              | none =>
                dsimp only
                cases hg : backend_get be clean op p with
                | none => exact Or.inl rfl
                | some coin =>
                  unfold remember
                  dsimp only
                  split
                  · exact Or.inr (Or.inr ⟨be, coin, rfl, rfl, rfl, hg, rfl⟩)
                  · exact Or.inl rfl

theorem Ok.note_read (h : Ok s) (hp : s.PrefetchOk p) (op : OutPoint) :
    Ok (s.note_read op p) ∧ (s.note_read op p).get = s.get ∧
      (s.note_read op p).backend = s.backend := by
  induction h generalizing p with
  | intro s layers base ih =>
    have hs : Ok s := .intro s layers base
    rcases note_read_cases s op p with he | ⟨b, hb, he⟩ | ⟨be, coin, hb, hm, hf, hg, he⟩
    · rw [he]
      exact ⟨hs, rfl, rfl⟩
    · obtain ⟨hok, hget, -⟩ := ih b hb (.none b)
      have hu : UtxoSet.under { s with base := some (b.note_read op none) } = s.under := by
        funext k
        simp only [under, upper, hb, hget]
        rfl
      have hl : LayersOk { s with base := some (b.note_read op none) } :=
        { layers with
          born_under := fun k hk => by rw [hu]; exact layers.born_under k hk
          overlay_bare := fun _ _ => layers.overlay_bare b hb }
      have ht : Ok { s with base := some (b.note_read op none) } :=
        .intro _ hl fun c hc => by cases hc; exact hok
      rw [he]
      refine ⟨ht, ?_, rfl⟩
      rw [ht.get_eq, hs.get_eq, hu]
    · have hbe : be.get op = some coin := by rw [← hg, layers.backend_get_eq hb hp]
      have hl : LayersOk { s with clean := s.clean.insert op coin } :=
        { layers with
          clean_backend := fun k c hk => by
            rcases CleanCoinCache.get_insert hk with ⟨rfl, rfl⟩ | ⟨-, hk⟩
            · exact ⟨hm, hf, be, hb, hbe⟩
            · exact layers.clean_backend k c hk }
      have ht : Ok { s with clean := s.clean.insert op coin } := .intro _ hl base
      rw [he]
      refine ⟨ht, ?_, rfl⟩
      rw [ht.get_eq, hs.get_eq]
      rfl

end UtxoSet

end AvilaNode
