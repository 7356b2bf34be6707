import AvilaNode.LayerStacks
import AvilaNode.TableRows

/-! The keys a set lists as born: their coins are in its map alone. -/

namespace AvilaNode.UtxoSet

open Layers

structure SameKeys (s t : UtxoSet) : Prop where
  map : t.map = s.map
  born : t.born = s.born
  base : t.base = s.base

/-- A coin for every born key, here and in the sets below. -/
inductive BornLive : UtxoSet → Prop
  | intro (s : UtxoSet) (own : ∀ op ∈ s.born, ∃ c, s.map.lookup op = some (some c))
      (base : ∀ b, s.base = some b → BornLive b) : BornLive s

variable {s t b : UtxoSet} {op : OutPoint}

section

variable (h : BornLive s)
include h

theorem BornLive.own (hop : op ∈ s.born) : ∃ c, s.map.lookup op = some (some c) := by
  cases h with
  | intro _ own _ => exact own op hop

theorem BornLive.base (hb : s.base = some b) : BornLive b := by
  cases h with
  | intro _ _ base => exact base b hb

theorem BornLive.write (hbase : t.base = s.base)
    (hborn : ∀ k ∈ t.born, k ∈ s.born ∧ t.map.lookup k = s.map.lookup k ∨ ∃ c, t.map.lookup k = some (some c)) :
    BornLive t := by
  refine .intro t (fun k hk => ?_) fun b hb => h.base (hbase ▸ hb)
  obtain ⟨hmem, hsame⟩ | hlive := hborn k hk
  · rw [hsame]
    exact h.own hmem
  · exact hlive

theorem BornLive.same (hst : SameKeys s t) : BornLive t :=
  h.write hst.base fun k hk => Or.inl ⟨hst.born ▸ hk, by rw [hst.map]⟩

theorem BornLive.flushed (hbase : t.base = s.base) (hborn : t.born = ∅) : BornLive t :=
  h.write hbase fun k hk => by
    rw [hborn] at hk
    cases hk

theorem BornLive.refresh_flat : BornLive s.refresh_flat := by
  unfold UtxoSet.refresh_flat
  split
  · exact h.same ⟨rfl, rfl, rfl⟩
  · exact h

theorem BornLive.erase (op : OutPoint) (hbase : t.base = s.base) (hborn : t.born = s.born.erase op)
    (hmap : ∀ k, k ≠ op → t.map.lookup k = s.map.lookup k) : BornLive t := by
  refine h.write hbase fun k hk => Or.inl ?_
  rw [hborn] at hk
  exact ⟨Finset.mem_of_mem_erase hk, hmap k (Finset.ne_of_mem_erase hk)⟩

theorem BornLive.tombstone (hop : op ∉ s.born) (hbase : t.base = s.base) (hborn : t.born = s.born)
    (hmap : t.map = s.map.insert op none) : BornLive t := by
  refine h.erase op hbase (by rw [hborn, Finset.erase_eq_of_notMem hop]) fun k hk => ?_
  rw [hmap, lookup_insert_eq, if_neg hk]

end

theorem run_worker_keys (s : UtxoSet) : SameKeys s s.run_worker := by
  rcases run_worker_cases s with he | ⟨job, -, -, ⟨seq, -, he⟩ | ⟨-, be, be', -, -, he⟩ | ⟨-, e, he⟩⟩ <;>
    rw [he] <;> exact ⟨rfl, rfl, rfl⟩

section

variable [Platform]

theorem BornLive.put (h : BornLive s) (entry : Option Coin) (hnew : entry = none → op ∉ s.born) :
    BornLive (s.put op entry) := by
  refine h.write rfl fun k hk => ?_
  change k ∈ (if s.born_now op entry then insert op s.born else s.born) at hk
  change (k ∈ s.born ∧ (s.map.insert op entry).lookup k = _) ∨ ∃ c, (s.map.insert op entry).lookup k = _
  rw [lookup_insert_eq]
  by_cases hkey : k = op
  · subst hkey
    cases entry with
    | some c => exact Or.inr ⟨c, by rw [if_pos rfl]⟩
    | none => exact absurd (by simpa [born_now] using hk) (hnew rfl)
  · rw [if_neg hkey]
    split at hk
    · exact Or.inl ⟨(Finset.mem_insert.mp hk).resolve_left hkey, rfl⟩
    · exact Or.inl ⟨hk, rfl⟩

theorem BornLive.spend (h : BornLive s) (op : OutPoint) : BornLive (s.spend op).2 := by
  unfold UtxoSet.spend
  dsimp only
  cases hmap : s.map.lookup op with
  | none =>
    have hop : op ∉ s.born := fun hop => by
      obtain ⟨c, hc⟩ := h.own hop
      cases hmap.symm.trans hc
    dsimp only
    split
    · exact h.tombstone hop rfl rfl rfl
    · exact h.same ⟨rfl, rfl, rfl⟩
  | some entry =>
    cases entry with
    | none => exact h.same ⟨rfl, rfl, rfl⟩
    | some c =>
      dsimp only
      split
      · exact h.erase op rfl rfl fun k hk => by rw [lookup_erase_eq, if_neg hk]
      · next hop => exact h.tombstone hop rfl rfl rfl

theorem BornLive.remove_entry (h : BornLive s) (op : OutPoint) : BornLive (s.remove_entry op) := by
  have hstep : ∃ t : UtxoSet, (s.remove_entry op = if t.lower_live op then t.put_raw op none else t) ∧
      BornLive t ∧ op ∉ t.born := by
    unfold UtxoSet.remove_entry
    dsimp only
    cases hmap : s.map.lookup op with
    | none => exact ⟨_, rfl, h.erase op rfl rfl fun _ _ => rfl, Finset.notMem_erase op s.born⟩
    | some old =>
      refine ⟨_, rfl, h.erase op rfl rfl fun k hk => ?_, Finset.notMem_erase op s.born⟩
      rw [lookup_erase_eq, if_neg hk]
  obtain ⟨t, he, ht, hop⟩ := hstep
  rw [he]
  split
  · exact ht.put none fun _ => hop
  · exact ht

theorem BornLive.note_read (h : BornLive s) (op : OutPoint) (p : Option (Delta OutPoint Coin)) :
    BornLive (s.note_read op p) := by
  induction h generalizing p with
  | intro s own base ih =>
    rcases note_read_cases s op p with he | ⟨b, hb, he⟩ | ⟨be, coin, -, -, -, -, he⟩
    · rw [he]
      exact .intro s own base
    · rw [he]
      refine .intro _ own fun c hc => ?_
      cases hc
      exact ih b hb none
    · rw [he]
      exact .intro _ own base

theorem join_flush_keys (h : s.join_flush = (.ok (), t)) : SameKeys s t := by
  have hw := run_worker_keys s
  unfold UtxoSet.join_flush at h
  split at h
  · cases h
    exact ⟨rfl, rfl, rfl⟩
  dsimp only at h
  split at h
  · cases h
    exact ⟨hw.map, hw.born, hw.base⟩
  split at h
  · split at h
    · cases h
      exact ⟨hw.map, hw.born, hw.base⟩
    · cases h
  · obtain ⟨clean, hclean⟩ := promote_warm_eq _ _
    rw [hclean] at h
    cases h
    exact ⟨hw.map, hw.born, hw.base⟩
  · cases h
  · cases h

theorem BornLive.flush_owned {undos : List UndoRow} {tip : ℕ} (h : BornLive s)
    (hf : s.flush_to_backend_owned undos tip = (.ok (), t)) : BornLive t := by
  unfold UtxoSet.flush_to_backend_owned at hf
  split at hf
  · cases hf
    exact h
  split at hf
  · cases hf
  · next hj =>
    cases hf
    exact (h.same (join_flush_keys hj)).flushed rfl rfl

theorem BornLive.flush_partial (h : BornLive s) (hf : s.flush_partial_to_backend = (.ok (), t)) : BornLive t := by
  unfold UtxoSet.flush_partial_to_backend at hf
  split at hf
  · cases hf
    exact h
  split at hf
  · cases hf
  · next hj =>
    have hjoined := h.same (join_flush_keys hj)
    split at hf
    · cases hf
      exact hjoined
    split at hf
    · cases hf
    obtain ⟨clean, hclean⟩ := promote_warm_eq _ _
    dsimp only at hf
    rw [hclean] at hf
    cases hf
    exact hjoined.flushed rfl rfl

theorem BornLive.apply {o : CoinOp} (h : BornLive s) (ho : s.apply o = (.ok (), t))
    (hput : ∀ op, o = .put op none → op ∉ s.born) : BornLive t := by
  cases o with
  | put op entry =>
    cases ho
    exact h.put entry fun he => hput op (by rw [he])
  | spend_coin op =>
    cases ho
    exact h.spend op
  | remove_entry op =>
    cases ho
    exact h.remove_entry op
  | read op =>
    cases ho
    exact h.note_read op none
  | flush_to_backend undos tip =>
    rw [UtxoSet.apply, UtxoSet.flush_to_backend] at ho
    split at ho
    · cases ho
      exact h
    · split at ho
      · cases ho
      · next hj => exact (h.same (join_flush_keys hj)).flush_owned ho
  | flush_to_backend_owned undos tip => exact h.flush_owned ho
  | commit_lands =>
    cases ho
    exact h.same (run_worker_keys s)
  | join_flush => exact h.same (join_flush_keys ho)
  | flush_partial_to_backend => exact h.flush_partial ho

theorem BornLive.put_all {es : List (OutPoint × Option Coin)} (h : BornLive s)
    (hes : es.Pairwise fun d e => d.1 ≠ e.1) (hnew : ∀ op, (op, none) ∈ es → op ∉ s.born) :
    BornLive (s.put_all es) := by
  induction es generalizing s with
  | nil => exact h
  | cons e es ih =>
    obtain ⟨op, entry⟩ := e
    obtain ⟨hfirst, hes⟩ := List.pairwise_cons.mp hes
    refine ih (h.put entry fun he => hnew op (by rw [he]; exact List.mem_cons_self)) hes fun k hk hborn => ?_
    have hold : k ∈ s.born := by
      change k ∈ (if s.born_now op entry then insert op s.born else s.born) at hborn
      split at hborn
      · exact (Finset.mem_insert.mp hborn).resolve_left (hfirst _ hk).symm
      · exact hborn
    exact hnew k (List.mem_cons_of_mem _ hk) hold

/-- Runs that put no tombstone over a born key, themselves or as a simulation is adopted. -/
inductive Careful : UtxoSet → Prop
  | new : Careful new
  | attach {s t : UtxoSet} : Careful s → Reachable t →
      (∃ be, t = s.attach_backend be) ∨ (∃ run, t = s.attach_snapshot run) ∨ (∃ found, t = s.enable_runs found) ∨
        t = s.enable_flat → Careful t
  | step {s t : UtxoSet} (o : CoinOp) : Careful s → s.apply o = (.ok (), t) →
      (∀ op, o = .put op none → op ∉ s.born) → Careful t
  | prefetched_read {s : UtxoSet} (op : OutPoint) (p : Option (Delta OutPoint Coin)) : Careful s →
      s.PrefetchOk p → Careful (s.note_read op p)
  | overlay {s : UtxoSet} : Careful s → Careful s.overlay.1
  | unoverlay {s b : UtxoSet} (left : UtxoSet) (commit : Bool) : Careful s → s.base = some b →
      (commit = true → ∀ op ∈ b.born, s.map.lookup op ≠ some none) → Careful (left.unoverlay s commit)

theorem Careful.reachable (h : Careful s) : Reachable s := by
  induction h with
  | new => exact .new
  | attach _ ht => exact ht
  | step o _ ho _ ih => exact .step o ih ho
  | prefetched_read op p _ hp ih => exact .prefetched_read op p ih hp
  | overlay _ ih => exact .overlay ih
  | unoverlay left commit _ hb _ ih => exact .unoverlay left commit ih hb

theorem Careful.born_live (h : Careful s) : BornLive s := by
  induction h with
  | new => exact .intro _ (fun _ hop => by cases hop) fun _ hb => by cases hb
  | attach _ _ how ih =>
    obtain ⟨be, rfl⟩ | ⟨run, rfl⟩ | ⟨found, rfl⟩ | rfl := how
    · exact BornLive.refresh_flat (ih.same ⟨rfl, rfl, rfl⟩)
    · exact BornLive.refresh_flat (ih.same ⟨rfl, rfl, rfl⟩)
    · exact ih.same ⟨rfl, rfl, rfl⟩
    · exact ih.same ⟨rfl, rfl, rfl⟩
  | step o _ ho hput ih => exact ih.apply ho hput
  | prefetched_read op p _ _ ih => exact ih.note_read op p
  | @overlay s _ ih =>
    refine .intro _ (fun _ hop => by cases hop) fun b hb => ?_
    cases hb
    exact ih
  | @unoverlay s b left commit _ hb hnew ih =>
    unfold UtxoSet.unoverlay
    rw [hb]
    dsimp only
    split
    · next hcommit =>
      refine (ih.base hb).put_all ?_ fun op hop hborn => ?_
      · have hkeys : s.map.keys.Nodup := s.map.nodupKeys
        rw [keys_eq_toList] at hkeys
        exact List.pairwise_map.mp hkeys
      · exact hnew hcommit op hborn (mem_toList.mp hop)
    · exact ih.base hb

end

attribute [local instance] Platform.sample

end AvilaNode.UtxoSet
