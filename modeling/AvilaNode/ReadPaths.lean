import AvilaNode.LayerStacks

/-! The four read paths of a layered set, and when they agree. -/

namespace AvilaNode

open Layers

variable {runs : List EpochLayer} {l : EpochLayer} {c : Coin}

namespace EpochLayer

def listed (l : EpochLayer) (op : OutPoint) : Option (Option Coin) :=
  if op ∈ l.del then some none else (l.run.records.find? fun r => r.1 = op).map fun r => some r.2

theorem find_record {rs : List RunRecord} (hs : SortedRun.sorted rs) {op : OutPoint} :
    (rs.find? fun r => r.1 = op) = some (op, c) ↔ (op, c) ∈ rs := by
  constructor
  · exact List.mem_of_find?_eq_some
  · intro hm
    induction rs with
    | nil => cases hm
    | cons r rs ih =>
      obtain ⟨hr, hs⟩ := List.pairwise_cons.mp hs
      rcases List.mem_cons.mp hm with rfl | hm
      · simp
      have hne : r.1 ≠ op := by
        intro he
        have := hr _ hm
        simp [he, OutPoint.key_lt_irrefl] at this
      simpa [hne] using ih hs hm

theorem listed_eq_some (hl : l.Wf) {op : OutPoint} :
    l.listed op = some (some c) ↔ (op, c) ∈ l.run.records := by
  unfold listed
  split
  · rename_i hd
    simp only [Option.some.injEq, reduceCtorEq, false_iff]
    exact fun hm => hl.del_records op c hm hd
  · rw [← find_record hl.sorted]
    simp only [Option.map_eq_some_iff, Option.some.injEq]
    constructor
    · rintro ⟨r, hr, rfl⟩
      have : r.1 = op := by simpa using List.find?_some hr
      rw [hr, ← this]
    · exact fun h => ⟨_, h, rfl⟩

theorem lookup_merge (hl : l.Wf) (all : Table OutPoint Coin) (op : OutPoint) :
    (eraseAll (insertAll all l.run.iter) l.del).lookup op = (l.listed op).getD (all.lookup op) := by
  rw [lookup_eraseAll]
  by_cases hd : op ∈ l.del
  · simp [listed, hd]
  rw [if_neg hd]
  cases hli : l.listed op with
  | some e =>
    cases e with
    | some c =>
      have hm := (listed_eq_some hl).mp hli
      apply lookup_insertAll_of_mem _ _ _ _ hm
      intro w hw
      rw [← listed_eq_some hl, hli] at hw
      simpa using hw.symm
    | none =>
      unfold listed at hli
      rw [if_neg hd] at hli
      simp at hli
  | none =>
    apply lookup_insertAll_of_notMem
    intro v hv
    rw [SortedRun.iter, ← listed_eq_some hl, hli] at hv
    cases hv

end EpochLayer

def listed_runs (runs : List EpochLayer) (op : OutPoint) : Option (Option Coin) :=
  runs.reverse.findSome? fun l => l.listed op

theorem lookup_merge_runs (hr : ∀ l ∈ runs, l.Wf) (all : Table OutPoint Coin) (op : OutPoint) :
    (UtxoSet.merge_runs all runs).lookup op = (listed_runs runs op).getD (all.lookup op) := by
  induction runs generalizing all with
  | nil => rfl
  | cons l runs ih =>
    have hcons : listed_runs (l :: runs) op = (listed_runs runs op).or (l.listed op) := by
      simp only [listed_runs, List.reverse_cons, List.findSome?_append, List.findSome?_cons,
        List.findSome?_nil]
      cases l.listed op <;> rfl
    rw [UtxoSet.merge_runs, ih (fun l hl => hr l (List.mem_cons_of_mem _ hl)),
      EpochLayer.lookup_merge (hr l List.mem_cons_self), hcons]
    cases listed_runs runs op <;> rfl

namespace UtxoSet

theorem lookup_merge_flushing (all : Table OutPoint Coin) (flushing : Option FlushLayer) (op : OutPoint) :
    (merge_flushing all flushing).lookup op = (snap_lookup flushing op).getD (all.lookup op) := by
  cases flushing with
  | none => rfl
  | some layer => exact lookup_applyDelta _ _ _

theorem lookup_committed_coins (s : UtxoSet) (op : OutPoint) :
    (committed_coins s.flat s.backend s.snapshot).lookup op =
      match s.flat with
      | some f => f.lookup op
      | none => (s.snapshot_get op).or (s.backend.bind fun be => be.get op) := by
  unfold committed_coins snapshot_get
  cases s.flat with
  | some f => rfl
  | none => cases s.snapshot <;> cases s.backend <;> simp [lookup_insertAll_toList, CoinsBackend.get]

variable {s : UtxoSet} {op : OutPoint}

theorem lookup_merged (hr : ∀ l ∈ s.runs, l.Wf) (op : OutPoint) :
    s.merged.lookup op = overlaid s.map (fun op => (snap_lookup s.flushing op).getD
      ((listed_runs s.runs op).getD
        (match s.base with
          | some b => (b.merged.lookup op).or ((committed_coins s.flat s.backend s.snapshot).lookup op)
          | none => (committed_coins s.flat s.backend s.snapshot).lookup op))) op := by
  obtain ⟨map, base, backend, snapshot, _, _, _, _, flat, flushing, _, runs, _, _, clean, _⟩ := s
  rw [merged.eq_def]
  rw [lookup_applyDelta, overlaid, overlaid, lookup_merge_flushing, lookup_merge_runs hr]
  cases base with
  | none => rfl
  | some b => rw [lookup_insertAll_toList]

theorem committed_agree (s : UtxoSet) (op : OutPoint) :
    ((s.committed op).isSome = s.committed_have op ∧
      (committed_coins s.flat s.backend s.snapshot).lookup op = s.committed op) ↔
    (s.flat = none → ∀ be c, s.backend = some be → s.snapshot_get op = some c → be.get op = some c) := by
  rw [lookup_committed_coins]
  unfold committed committed_have
  cases hf : s.flat with
  | some f => simp
  | none =>
    cases hb : s.backend with
    | none => cases hs : s.snapshot <;> simp [snapshot_get, hs]
    | some be =>
      have hany : (s.snapshot.any fun run => (run.lookup op).isSome) = (s.snapshot_get op).isSome := by
        unfold snapshot_get
        cases s.snapshot <;> rfl
      simp only [Option.any_some, CoinsBackend.have_, hany, Option.bind_some]
      change ((be.get op).isSome = ((be.get op).isSome || (s.snapshot_get op).isSome) ∧
        (s.snapshot_get op).or (be.get op) = be.get op) ↔ _
      cases hs : s.snapshot_get op <;> cases hg : be.get op <;> simp
      · exact fun h => by simp [hg] at h
      · rw [hg, Option.some.injEq, eq_comm]

theorem lower_of_committed (h : s.committed op = some c) :
    (s.flat.bind fun f => f.lookup op).or ((s.backend.bind fun be => be.get op).or (s.snapshot_get op)) =
      some c := by
  unfold committed at h
  cases hfl : s.flat with
  | some f => simp_all
  | none =>
    cases hbe : s.backend with
    | some be => simp_all
    | none => simpa [hfl, hbe, snapshot_get] using h

variable [Platform]

theorem probe_listed (hl : l.Wf) (op : OutPoint) :
    l.probe op = l.listed op ∨ (l.probe op = none ∧ ∃ c, l.listed op = some (some c)) := by
  by_cases hd : op ∈ l.del
  · left
    rw [EpochLayer.probe, EpochLayer.listed, if_pos hd, if_pos hd]
  rw [EpochLayer.probe, if_neg hd]
  cases hg : l.run.get_key op with
  | some c =>
    left
    exact ((EpochLayer.listed_eq_some hl).mpr (SortedRun.get_key_mem hg)).symm
  | none =>
    cases hli : l.listed op with
    | none => exact Or.inl rfl
    | some e =>
      cases e with
      | some c => exact Or.inr ⟨rfl, c, rfl⟩
      | none =>
        rw [EpochLayer.listed, if_neg hd] at hli
        simp at hli

theorem probe_runs_listed (hr : ∀ l ∈ runs, l.Wf) (op : OutPoint) :
    probe_runs runs op = listed_runs runs op ∨ ∃ c, listed_runs runs op = some (some c) := by
  unfold probe_runs listed_runs
  have hrev : ∀ l ∈ runs.reverse, l.Wf := fun l hl => hr l (List.mem_reverse.mp hl)
  generalize runs.reverse = ls at hrev ⊢
  induction ls with
  | nil => exact Or.inl rfl
  | cons l ls ih =>
    have ih := ih fun l hl => hrev l (List.mem_cons_of_mem _ hl)
    rw [List.findSome?_cons, List.findSome?_cons]
    rcases probe_listed (hrev l List.mem_cons_self) op with hp | ⟨-, c, hc⟩
    · rw [hp]
      cases l.listed op with
      | some e => exact Or.inl rfl
      | none => exact ih
    · exact Or.inr ⟨c, by rw [hc]⟩

/-- Where neither the dirty map nor an in-flight flush decides, the leaf under the overlays answers by
point lookup what its newest epoch naming the outpoint lists; where no epoch names it and no mirror
is on, an attached backend holds the snapshot's coin. -/
def ListSettled (s : UtxoSet) (op : OutPoint) : Prop :=
  match s with
  | { map, base, backend, flat, flushing, runs, .. } =>
    map.lookup op = none → snap_lookup flushing op = none →
      match base with
      | some b => ListSettled b op
      | none =>
        match listed_runs runs op with
        | some none => True
        | some (some c) => (probe_runs runs op).getD (s.committed op) = some c
        | none => flat = none → ∀ be c, backend = some be → s.snapshot_get op = some c → be.get op = some c

def MirrorSettled (s : UtxoSet) (op : OutPoint) : Prop :=
  s.map.lookup op = none → snap_lookup s.flushing op = none → s.base = none → listed_runs s.runs op = none →
    ∀ f, s.flat = some f → (s.snapshot_get op).isSome → (f.lookup op).isSome

structure AgreesAt (s : UtxoSet) (op : OutPoint) : Prop where
  have_ : (s.get op).isSome = s.have_ op
  iter : ∀ c, s.get op = some c ↔ (op, c) ∈ s.iter
  spend : (s.spend_coin op).1 = s.get op

theorem listSettled_eq (s : UtxoSet) (op : OutPoint) : s.ListSettled op ↔
    (s.map.lookup op = none → snap_lookup s.flushing op = none →
      match s.base with
      | some b => b.ListSettled op
      | none =>
        match listed_runs s.runs op with
        | some none => True
        | some (some c) => (probe_runs s.runs op).getD (s.committed op) = some c
        | none => s.flat = none → ∀ be c, s.backend = some be → s.snapshot_get op = some c →
          be.get op = some c) := by
  obtain ⟨map, base, backend, snapshot, _, _, _, _, flat, flushing, _, runs, _, _, clean, _⟩ := s
  rw [ListSettled.eq_def]

theorem Ok.list_agree (h : Ok s) (op : OutPoint) :
    ((s.get op).isSome = s.have_ op ∧ s.merged.lookup op = s.get op) ↔ s.ListSettled op := by
  induction h with
  | intro s layers base ih =>
    rw [listSettled_eq, have_eq, lookup_merged layers.runs_wf, get_of_layers layers, overlaid, overlaid, under]
    cases hm : s.map.lookup op with
    | some e => simp
    | none =>
      cases hf : snap_lookup s.flushing op with
      | some e => simp
      | none =>
        simp only [Option.getD_none, forall_const]
        cases hb : s.base with
        | some b =>
          obtain ⟨hbe, hfl, hsn, hr, -⟩ := layers.overlay_bare b hb
          have hcc : (committed_coins s.flat s.backend s.snapshot).lookup op = none := by
            rw [hbe, hfl, hsn]
            rfl
          have hli : listed_runs s.runs op = none := by
            rw [hr]
            rfl
          rw [hcc, hli]
          simpa [upper, hb] using ih b hb
        | none =>
          simp only [upper, hb]
          rcases probe_runs_listed layers.runs_wf op with hp | ⟨c, hc⟩
          · cases hli : listed_runs s.runs op with
            | none =>
              rw [hp, hli]
              exact committed_agree s op
            | some e =>
              rw [hp, hli]
              cases e <;> simp
          · rw [hc]
            simp only [Option.getD_some]
            constructor
            · exact fun ha => ha.2.symm
            · intro ha
              refine ⟨?_, ha.symm⟩
              rw [ha]
              cases hp : probe_runs s.runs op with
              | some hit =>
                rw [hp, Option.getD_some] at ha
                simp [ha]
              | none =>
                rw [hp, Option.getD_none] at ha
                by_contra hh
                have := have_committed (by simpa using hh)
                rw [this] at ha
                cases ha

theorem listed_none_probe (hr : ∀ l ∈ runs, l.Wf) (h : listed_runs runs op = none) :
    probe_runs runs op = none := by
  rcases probe_runs_listed hr op with hp | ⟨c, hc⟩
  · rw [hp, h]
  · rw [h] at hc
    cases hc

theorem probe_none_listed (hr : ∀ l ∈ runs, l.Wf) (h : probe_runs runs op = none) :
    listed_runs runs op = none ∨ ∃ c, listed_runs runs op = some (some c) := by
  rcases probe_runs_listed hr op with hp | hc
  · exact Or.inl (hp.symm.trans h)
  · exact Or.inr hc

theorem lower_get_overlay {b : UtxoSet} (h : LayersOk s) (hb : s.base = some b) : s.lower_get op = s.under op := by
  obtain ⟨hbe, hfl, hsn, hr, hf⟩ := h.overlay_bare b hb
  have hp : probe_runs s.runs op = none := by
    rw [hr]
    rfl
  rw [lower_get, under, upper, hf, hb, hp, hfl, hbe, hsn]
  cases hg : b.get op <;> simp [snap_lookup, hg]

theorem lower_get_leaf (hf : snap_lookup s.flushing op = none) (hb : s.base = none)
    (hp : probe_runs s.runs op = none) :
    s.lower_get op = (s.flat.bind fun f => f.lookup op).or
      ((s.backend.bind fun be => be.get op).or (s.snapshot_get op)) := by
  rw [lower_get, hf, hb, hp]
  rfl

theorem LayersOk.flat_miss (h : LayersOk s) {f : Table OutPoint Coin} (hfl : s.flat = some f)
    (hf : snap_lookup s.flushing op = none) (hn : f.lookup op = none) :
    (s.backend.bind fun be => be.get op) = none := by
  cases hbe : s.backend with
  | none => rfl
  | some be =>
    apply h.backend_none hbe hf
    rw [committed, hfl]
    exact hn

theorem LayersOk.committed_lower (h : LayersOk s) (hf : snap_lookup s.flushing op = none)
    (hl : s.flat = none → ∀ be c, s.backend = some be → s.snapshot_get op = some c → be.get op = some c) :
    (s.flat.bind fun f => f.lookup op).or ((s.backend.bind fun be => be.get op).or (s.snapshot_get op)) =
        s.committed op ↔
      ∀ f, s.flat = some f → (s.snapshot_get op).isSome → (f.lookup op).isSome := by
  cases hfl : s.flat with
  | some f =>
    have hc : s.committed op = f.lookup op := by rw [committed, hfl]
    rw [hc]
    cases hn : f.lookup op with
    | some c => simp [hn]
    | none =>
      rw [h.flat_miss hfl hf hn]
      cases s.snapshot_get op <;> simp [hn]
  | none =>
    cases hbe : s.backend with
    | none => simp [committed, hfl, hbe, snapshot_get]
    | some be =>
      have hc : s.committed op = be.get op := by rw [committed, hfl, hbe]
      rw [hc]
      cases hs : s.snapshot_get op with
      | none => simp
      | some c => simp [hl hfl be c hbe hs]

theorem LayersOk.lower_agree (h : LayersOk s) (hl : s.ListSettled op) (hm : s.map.lookup op = none) :
    s.lower_get op = s.under op ↔ s.MirrorSettled op := by
  have hl := (listSettled_eq s op).mp hl hm
  unfold MirrorSettled
  cases hf : snap_lookup s.flushing op with
  | some e => simp [lower_get, under, hf]
  | none =>
    have hl := hl hf
    cases hb : s.base with
    | some b => simp [lower_get_overlay h hb]
    | none =>
      rw [hb] at hl
      have hu : s.under op = (probe_runs s.runs op).getD (s.committed op) := by
        rw [under, upper, hf, hb]
      cases hp : probe_runs s.runs op with
      | some hit =>
        have hli : listed_runs s.runs op ≠ none := by
          intro hn
          rw [listed_none_probe h.runs_wf hn] at hp
          cases hp
        have hlg : s.lower_get op = hit := by simp [lower_get, hf, hb, hp]
        rw [hlg, hu, hp]
        simp [hli]
      | none =>
        rw [hp, Option.getD_none] at hu
        rw [hu, lower_get_leaf hf hb hp]
        rcases probe_none_listed h.runs_wf hp with hli | ⟨c, hli⟩
        · rw [hli] at hl
          rw [h.committed_lower hf hl]
          simp [hm, hli]
        · rw [hli, hp] at hl
          rw [lower_of_committed hl, show s.committed op = some c from hl]
          simp [hli]

theorem LayersOk.cached_get (h : LayersOk s) (hv : s.backend_read_visible op = true)
    (hc : (s.clean.take op).1 = some c) : s.get op = some c := by
  rw [CleanCoinCache.take_fst] at hc
  obtain ⟨hm, hf, be, hbe, hg⟩ := h.clean_backend op c hc
  unfold backend_read_visible at hv
  simp only [Bool.not_eq_true', Bool.or_eq_false_iff, Bool.not_eq_false', List.isEmpty_iff,
    Option.isSome_eq_false_iff, Option.isNone_iff_eq_none] at hv
  obtain ⟨⟨⟨-, hb⟩, hr⟩, hfl⟩ := hv
  rw [get_of_layers h, overlaid_of_none _ hm, under, hf, upper, hb, hr]
  simp [probe_runs, committed, hfl, hbe, hg]

theorem spend_coin_fst (h : LayersOk s) (op : OutPoint) (hl : s.ListSettled op) :
    (s.spend_coin op).1 = s.get op ↔ s.MirrorSettled op := by
  cases hm : s.map.lookup op with
  | some e =>
    have hg : s.get op = e := by rw [get_of_layers h, overlaid_of_lookup _ hm]
    have hs : (s.spend_coin op).1 = e := by
      unfold UtxoSet.spend_coin UtxoSet.spend
      dsimp only
      rw [hm]
      cases e with
      | none => rfl
      | some c =>
        dsimp only
        split <;> rfl
    simp [hg, hs, MirrorSettled, hm]
  | none =>
    have hu : s.get op = s.under op := by rw [get_of_layers h, overlaid_of_none _ hm]
    have hs : (s.spend_coin op).1 =
        (if s.backend_read_visible op then (s.clean.take op).1 else none).or (s.lower_get op) := by
      unfold UtxoSet.spend_coin UtxoSet.spend
      dsimp only
      rw [hm]
      dsimp only
      split
      · rename_i coin hc
        exact hc.symm
      · rename_i hn
        exact hn.symm
    rw [hs]
    split
    · rename_i hv
      cases hc : (s.clean.take op).1 with
      | none => rw [Option.none_or, hu, h.lower_agree hl hm]
      | some c =>
        have hfl : s.flat = none := by
          unfold backend_read_visible at hv
          simp at hv
          simp [hv]
        rw [Option.some_or, h.cached_get hv hc]
        simp [MirrorSettled, hfl]
    · rw [Option.none_or, hu, h.lower_agree hl hm]

theorem Ok.agreesAt_iff (h : Ok s) (op : OutPoint) : s.AgreesAt op ↔ s.ListSettled op ∧ s.MirrorSettled op := by
  have hiter : (∀ c, s.get op = some c ↔ (op, c) ∈ s.iter) ↔ s.merged.lookup op = s.get op := by
    simp only [iter, mem_toList]
    constructor
    · intro hc
      apply Option.ext
      exact fun c => (hc c).symm
    · exact fun he c => by rw [he]
  constructor
  · rintro ⟨hh, hi, hs⟩
    have hl := (h.list_agree op).mp ⟨hh, hiter.mp hi⟩
    exact ⟨hl, (spend_coin_fst h.layers op hl).mp hs⟩
  · rintro ⟨hl, hm⟩
    obtain ⟨hh, hi⟩ := (h.list_agree op).mpr hl
    exact ⟨hh, hiter.mpr hi, (spend_coin_fst h.layers op hl).mpr hm⟩

end UtxoSet

open UtxoSet

section

attribute [local instance] Platform.sample

def sample_snapshot_set : UtxoSet :=
  new.attach_snapshot ((∅ : Table OutPoint Coin).insert ⟨1, 0⟩ ⟨⟨5, []⟩, 1, false⟩)

theorem sample_snapshot_set_reachable : Reachable sample_snapshot_set :=
  .attach_snapshot _ .new rfl fun _ h => by cases h

end

end AvilaNode
