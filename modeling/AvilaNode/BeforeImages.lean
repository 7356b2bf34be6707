import AvilaNode.Layers

/-! What each touched key held first, and putting it back. -/

namespace AvilaNode.BeforeImages

open Layers

variable {K R : Type} [DecidableEq K] {orig now after : K → R} {before : Table K R} {k : K}

def Recorded (orig now : K → R) (before : Table K R) : Prop :=
  ∀ k, (before.lookup k).elim (now k = orig k) (· = orig k)

def record (now : K → R) (before : Table K R) (k : K) : Table K R :=
  if (before.lookup k).isSome then before else before.insert k (now k)

def put (now : K → R) (k : K) (row : R) : K → R := fun j => if j = k then row else now j

def restore (now : K → R) : List (K × R) → K → R
  | [] => now
  | (k, row) :: rows => restore (put now k row) rows

theorem recorded_start (now : K → R) : Recorded now now ∅ := fun _ => rfl

section

variable (h : Recorded orig now before)
include h

theorem Recorded.orig_of_lookup {row : R} (hk : before.lookup k = some row) :
    row = orig k := by
  have hrow := h k
  rwa [hk] at hrow

theorem Recorded.now_of_lookup (hk : before.lookup k = none) : now k = orig k := by
  have hrow := h k
  rwa [hk] at hrow

theorem Recorded.record (k : K) : Recorded orig now (record now before k) := by
  intro j
  unfold BeforeImages.record
  split
  · exact h j
  · next hk =>
    rw [lookup_insert_eq]
    split
    · next hj =>
      have hnone : before.lookup k = none := by simpa using hk
      rw [hj]
      exact h.now_of_lookup hnone
    · exact h j

theorem Recorded.edit (hk : (before.lookup k).isSome = true) (hother : ∀ j, j ≠ k → after j = now j) :
    Recorded orig after before := by
  intro j
  by_cases hj : j = k
  · subst hj
    obtain ⟨row, hrow⟩ := Option.isSome_iff_exists.mp hk
    rw [hrow]
    exact h.orig_of_lookup hrow
  · rw [hother j hj]
    exact h j

end

variable {rows : List (K × R)}

theorem restore_of_notMem (h : k ∉ rows.map Prod.fst) : restore now rows k = now k := by
  induction rows generalizing now with
  | nil => rfl
  | cons row rows ih =>
    rw [List.map_cons, List.mem_cons, not_or] at h
    obtain ⟨hk, hrest⟩ := h
    rw [restore, ih hrest, put, if_neg hk]

theorem restore_of_mem (hn : (rows.map Prod.fst).Nodup) {row : R} (h : (k, row) ∈ rows) :
    restore now rows k = row := by
  induction rows generalizing now with
  | nil => cases h
  | cons first rows ih =>
    rw [List.map_cons, List.nodup_cons] at hn
    rw [restore]
    rcases List.mem_cons.mp h with rfl | h
    · rw [restore_of_notMem hn.1, put, if_pos rfl]
    · exact ih hn.2 h

theorem Recorded.restore (h : Recorded orig now before) (hn : (rows.map Prod.fst).Nodup)
    (hrows : ∀ k row, (k, row) ∈ rows ↔ before.lookup k = some row) : restore now rows = orig := by
  funext k
  cases hk : before.lookup k with
  | some row => rw [restore_of_mem hn ((hrows k row).mpr hk), h.orig_of_lookup hk]
  | none =>
    rw [restore_of_notMem, h.now_of_lookup hk]
    intro hmem
    obtain ⟨⟨j, row⟩, hrow, rfl⟩ := List.mem_map.mp hmem
    rw [(hrows j row).mp hrow] at hk
    cases hk

end AvilaNode.BeforeImages
