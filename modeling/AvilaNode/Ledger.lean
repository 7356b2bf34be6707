import AvilaNode.Layers
import Mathlib.Algebra.BigOperators.Finprod

/-! Steps that take entries from a view and make others, the records that undo them, and totals. -/

namespace AvilaNode.Ledger

open Layers

variable {K V : Type}

structure Step (K V : Type) where
  takes : List K
  makes : List (K × V)

structure Undo (K V : Type) where
  taken : List (K × V)
  covered : List (K × V)

def drops (ks : List K) : List (K × Option V) := ks.map fun k => (k, none)

def puts (es : List (K × V)) : List (K × Option V) := es.map fun e => (e.1, some e.2)

variable {v : View K V} {k : K} {e : Option V}

theorem mem_drops {ks : List K} : (k, e) ∈ drops ks ↔ k ∈ ks ∧ e = none := by
  simp only [drops, List.mem_map, Prod.mk.injEq]
  constructor
  · rintro ⟨a, ha, rfl, rfl⟩
    exact ⟨ha, rfl⟩
  · rintro ⟨h, rfl⟩
    exact ⟨k, h, rfl, rfl⟩

theorem mem_puts {es : List (K × V)} :
    (k, e) ∈ puts es ↔ ∃ c, (k, c) ∈ es ∧ e = some c := by
  simp only [puts, List.mem_map, Prod.mk.injEq, Prod.exists]
  constructor
  · rintro ⟨a, c, ha, rfl, rfl⟩
    exact ⟨c, ha, rfl⟩
  · rintro ⟨c, h, rfl⟩
    exact ⟨k, c, h, rfl, rfl⟩

section

variable [DecidableEq K]

def writeAll (v : View K V) : List (K × Option V) → View K V
  | [] => v
  | e :: es => writeAll (Function.update v e.1 e.2) es

theorem writeAll_append (v : View K V) (es fs : List (K × Option V)) :
    writeAll v (es ++ fs) = writeAll (writeAll v es) fs := by
  induction es generalizing v with
  | nil => rfl
  | cons e es ih => exact ih _

variable {t : Step K V} {es : List (K × Option V)} {steps : List (Step K V × Undo K V)}

theorem writeAll_of_notMem (h : ∀ e, (k, e) ∉ es) :
    writeAll v es k = v k := by
  induction es generalizing v with
  | nil => rfl
  | cons e es ih =>
    have hne : k ≠ e.1 := fun hk => h e.2 (by simp [hk])
    rw [writeAll, ih fun x hx => h x (List.mem_cons_of_mem _ hx), Function.update_of_ne hne]

theorem writeAll_of_mem (h : (k, e) ∈ es) (hu : ∀ x, (k, x) ∈ es → x = e) : writeAll v es k = e := by
  induction es generalizing v with
  | nil => cases h
  | cons a es ih =>
    have hu' : ∀ x, (k, x) ∈ es → x = e := fun x hx => hu x (List.mem_cons_of_mem _ hx)
    by_cases hm : (k, e) ∈ es
    · exact ih hm hu'
    have ha : a = (k, e) := by
      rcases List.mem_cons.mp h with ha | ha
      · exact ha.symm
      · exact absurd ha hm
    rw [writeAll, writeAll_of_notMem fun x hx => hm (hu' x hx ▸ hx), ha, Function.update_self]

theorem writeAll_congr {v w : View K V} (es : List (K × Option V)) (h : v k = w k) :
    writeAll v es k = writeAll w es k := by
  induction es generalizing v w with
  | nil => exact h
  | cons e es ih =>
    apply ih
    by_cases hk : k = e.1
    · rw [hk, Function.update_self, Function.update_self]
    · rw [Function.update_of_ne hk, Function.update_of_ne hk, h]

theorem writeAll_written (v w : View K V) (h : (k, e) ∈ es) : writeAll v es k = writeAll w es k := by
  induction es generalizing v w with
  | nil => cases h
  | cons a es ih =>
    rcases List.mem_cons.mp h with rfl | h
    · exact writeAll_congr es (by rw [Function.update_self, Function.update_self])
    · exact ih _ _ h

theorem update_values {P : V → Prop} (hv : ∀ k c, v k = some c → P c) (he : ∀ c, e = some c → P c) :
    ∀ j c, Function.update v k e j = some c → P c := by
  intro j c hc
  by_cases hj : j = k
  · rw [hj, Function.update_self] at hc
    exact he c hc
  · rw [Function.update_of_ne hj] at hc
    exact hv j c hc

theorem writeAll_values {P : V → Prop} (hv : ∀ k c, v k = some c → P c) (he : ∀ e ∈ es, ∀ c, e.2 = some c → P c) :
    ∀ k c, writeAll v es k = some c → P c := by
  induction es generalizing v with
  | nil => exact hv
  | cons e es ih =>
    exact ih (update_values hv (he e List.mem_cons_self)) fun a ha => he a (List.mem_cons_of_mem _ ha)

namespace Step

def taken (t : Step K V) (v : View K V) : View K V := writeAll v (drops t.takes)

def after (t : Step K V) (v : View K V) : View K V := writeAll (t.taken v) (puts t.makes)

def undoing (t : Step K V) (u : Undo K V) : List (K × Option V) :=
  drops (t.makes.map Prod.fst) ++ puts u.covered ++ puts u.taken

def back (t : Step K V) (u : Undo K V) (v : View K V) : View K V := writeAll v (t.undoing u)

structure Records (t : Step K V) (v : View K V) (u : Undo K V) : Prop where
  taken_of : ∀ k c, (k, c) ∈ u.taken → v k = some c
  of_takes : ∀ k ∈ t.takes, ∃ c, (k, c) ∈ u.taken
  taken_takes : ∀ k c, (k, c) ∈ u.taken → k ∈ t.takes
  covered_of : ∀ k c, (k, c) ∈ u.covered → t.taken v k = some c
  covered_makes : ∀ k c, (k, c) ∈ u.covered → k ∈ t.makes.map Prod.fst
  of_makes : ∀ e ∈ t.makes, ∀ c, t.taken v e.1 = some c → (e.1, c) ∈ u.covered

theorem taken_of_notMem (h : k ∉ t.takes) : t.taken v k = v k := by
  apply writeAll_of_notMem
  intro e he
  exact h (mem_drops.mp he).1

theorem taken_of_mem (h : k ∈ t.takes) : t.taken v k = none :=
  writeAll_of_mem (mem_drops.mpr ⟨h, rfl⟩) fun _ hx => (mem_drops.mp hx).2

theorem after_of_not_made (h : k ∉ t.makes.map Prod.fst) :
    t.after v k = t.taken v k := by
  apply writeAll_of_notMem
  intro e he
  obtain ⟨c, hc, -⟩ := mem_puts.mp he
  exact h (List.mem_map.mpr ⟨_, hc, rfl⟩)

theorem after_congr {v w : View K V} (h : v k = w k) : t.after v k = t.after w k :=
  writeAll_congr _ (writeAll_congr _ h)

theorem after_of_touched (v w : View K V) (h : k ∈ t.takes ∨ k ∈ t.makes.map Prod.fst) :
    t.after v k = t.after w k := by
  by_cases hm : k ∈ t.makes.map Prod.fst
  · obtain ⟨e, he, rfl⟩ := List.mem_map.mp hm
    exact writeAll_written _ _ (mem_puts.mpr ⟨e.2, he, rfl⟩)
  · have ht := h.resolve_right hm
    rw [after_of_not_made hm, after_of_not_made hm, taken_of_mem ht, taken_of_mem ht]

theorem Records.back_after {u : Undo K V} (h : t.Records v u) :
    t.back u (t.after v) = v := by
  funext k
  unfold back undoing
  rw [writeAll_append, writeAll_append]
  by_cases hk : ∃ c, (k, c) ∈ u.taken
  · obtain ⟨c, hc⟩ := hk
    rw [h.taken_of k c hc]
    apply writeAll_of_mem (mem_puts.mpr ⟨c, hc, rfl⟩)
    intro x hx
    obtain ⟨d, hd, rfl⟩ := mem_puts.mp hx
    rw [← h.taken_of k d hd, h.taken_of k c hc]
  · have htk : k ∉ t.takes := fun ht => hk (h.of_takes k ht)
    have hv := taken_of_notMem (v := v) htk
    rw [writeAll_of_notMem fun e he => hk ((mem_puts.mp he).imp fun _ hc => hc.1)]
    by_cases hc : ∃ c, (k, c) ∈ u.covered
    · obtain ⟨c, hc⟩ := hc
      have hcov := h.covered_of k c hc
      rw [← hv, hcov]
      apply writeAll_of_mem (mem_puts.mpr ⟨c, hc, rfl⟩)
      intro x hx
      obtain ⟨d, hd, rfl⟩ := mem_puts.mp hx
      rw [← h.covered_of k d hd, hcov]
    · rw [writeAll_of_notMem fun e he => hc ((mem_puts.mp he).imp fun _ hc => hc.1)]
      by_cases hm : k ∈ t.makes.map Prod.fst
      · have hnone : v k = none := by
          obtain ⟨e, he, rfl⟩ := List.mem_map.mp hm
          rw [← hv]
          cases ht : t.taken v e.1 with
          | none => rfl
          | some c => exact absurd ⟨c, h.of_makes e he c ht⟩ hc
        rw [hnone]
        exact writeAll_of_mem (mem_drops.mpr ⟨hm, rfl⟩) fun x hx => (mem_drops.mp hx).2
      · rw [writeAll_of_notMem fun e he => hm (mem_drops.mp he).1, after, writeAll_of_notMem, hv]
        intro e he
        obtain ⟨c, hc, -⟩ := mem_puts.mp he
        exact hm (List.mem_map.mpr ⟨_, hc, rfl⟩)

end Step

def afterAll (v : View K V) : List (Step K V × Undo K V) → View K V
  | [] => v
  | (t, _) :: steps => afterAll (t.after v) steps

def undoingAll : List (Step K V × Undo K V) → List (K × Option V)
  | [] => []
  | (t, u) :: steps => undoingAll steps ++ t.undoing u

def RecordsAll (v : View K V) : List (Step K V × Undo K V) → Prop
  | [] => True
  | (t, u) :: steps => t.Records v u ∧ RecordsAll (t.after v) steps

theorem afterAll_append (v : View K V) (a b : List (Step K V × Undo K V)) :
    afterAll v (a ++ b) = afterAll (afterAll v a) b := by
  induction a generalizing v with
  | nil => rfl
  | cons x a ih => exact ih _

theorem recordsAll_append {a b : List (Step K V × Undo K V)} :
    RecordsAll v (a ++ b) ↔ RecordsAll v a ∧ RecordsAll (afterAll v a) b := by
  induction a generalizing v with
  | nil => simp [RecordsAll, afterAll]
  | cons x a ih =>
    obtain ⟨t, u⟩ := x
    simp only [List.cons_append, RecordsAll, afterAll, ih, and_assoc]

theorem RecordsAll.back_after (h : RecordsAll v steps) :
    writeAll (afterAll v steps) (undoingAll steps) = v := by
  induction steps generalizing v with
  | nil => rfl
  | cons x steps ih =>
    obtain ⟨t, u⟩ := x
    rw [undoingAll, afterAll, writeAll_append, ih h.2]
    exact h.1.back_after

def Touches (steps : List (Step K V × Undo K V)) (k : K) : Prop := ∃ e, (k, e) ∈ undoingAll steps

theorem Step.Records.mem_undoing {u : Undo K V} (h : t.Records v u) :
    (∃ e, (k, e) ∈ t.undoing u) ↔ k ∈ t.takes ∨ k ∈ t.makes.map Prod.fst := by
  simp only [Step.undoing, List.mem_append, mem_drops, mem_puts]
  constructor
  · rintro ⟨e, (⟨hm, -⟩ | ⟨c, hc, -⟩) | ⟨c, hc, -⟩⟩
    · exact Or.inr hm
    · exact Or.inr (h.covered_makes k c hc)
    · exact Or.inl (h.taken_takes k c hc)
  · rintro (ht | hm)
    · obtain ⟨c, hc⟩ := h.of_takes k ht
      exact ⟨some c, Or.inr ⟨c, hc, rfl⟩⟩
    · exact ⟨none, Or.inl (Or.inl ⟨hm, rfl⟩)⟩

theorem RecordsAll.touches (h : RecordsAll v steps) :
    Touches steps k ↔ ∃ x ∈ steps, k ∈ x.1.takes ∨ k ∈ x.1.makes.map Prod.fst := by
  unfold Touches
  induction steps generalizing v with
  | nil => simp [undoingAll]
  | cons x steps ih =>
    obtain ⟨t, u⟩ := x
    simp only [undoingAll, List.mem_append, exists_or, ih h.2, h.1.mem_undoing, List.mem_cons,
      exists_eq_or_imp]
    exact or_comm

theorem RecordsAll.back_from {v w : View K V} (h : RecordsAll v steps) :
    writeAll w (undoingAll steps) = v ↔ ∀ k, ¬ Touches steps k → w k = afterAll v steps k := by
  have hk : ∀ k, ¬ Touches steps k → ∀ x : View K V, writeAll x (undoingAll steps) k = x k :=
    fun k hn x => writeAll_of_notMem fun e he => hn ⟨e, he⟩
  constructor
  · intro he k hn
    rw [← hk k hn w, he, ← hk k hn (afterAll v steps), h.back_after]
  · intro he
    funext k
    by_cases hn : Touches steps k
    · obtain ⟨e, hmem⟩ := hn
      rw [writeAll_written w (afterAll v steps) hmem, h.back_after]
    · rw [hk k hn w, he k hn, ← hk k hn (afterAll v steps), h.back_after]

end

def FiniteSupport (v : View K V) : Prop := {k | v k ≠ none}.Finite

noncomputable def total (val : V → ℤ) (v : View K V) : ℤ := ∑ᶠ k, (v k).elim 0 val

theorem FiniteSupport.support (h : FiniteSupport v) (val : V → ℤ) :
    (Function.support fun k => (v k).elim 0 val).Finite := by
  apply Set.Finite.subset h
  intro k hk hn
  rw [Function.mem_support, hn] at hk
  exact hk rfl

variable [DecidableEq K]

theorem FiniteSupport.update (h : FiniteSupport v) (k : K) (e : Option V) :
    FiniteSupport (Function.update v k e) := by
  apply Set.Finite.subset (Set.Finite.insert k h)
  intro j hj
  by_cases hjk : j = k
  · exact Or.inl hjk
  · rw [Set.mem_ofPred_eq, Function.update_of_ne hjk] at hj
    exact Or.inr hj

theorem finite_lookup (t : Table K V) : FiniteSupport t.lookup := by
  apply Set.Finite.subset t.keys.toFinset.finite_toSet
  intro k hk
  simp only [Finset.mem_coe, List.mem_toFinset]
  exact AList.lookup_isSome.mp (Option.isSome_iff_ne_none.mpr hk)

section

variable (h : FiniteSupport v)
include h

theorem FiniteSupport.overlaid (d : Delta K V) :
    FiniteSupport (Layers.overlaid d v) := by
  apply Set.Finite.subset ((finite_lookup d).union h)
  intro k hk
  by_cases hd : d.lookup k = none
  · right
    rwa [Set.mem_ofPred_eq, overlaid_of_none v hd] at hk
  · exact Or.inl hd

variable (val : V → ℤ)

theorem total_update (k : K) (e : Option V) :
    total val (Function.update v k e) = total val v - (v k).elim 0 val + e.elim 0 val := by
  have hsum : (fun j => (Function.update v k e j).elim 0 val) =
      fun j => (v j).elim 0 val + (Pi.single k (e.elim 0 val - (v k).elim 0 val) : K → ℤ) j := by
    funext j
    by_cases hj : j = k
    · subst hj
      simp
    · simp [hj]
  have hsingle : ∑ᶠ j, (Pi.single k (e.elim 0 val - (v k).elim 0 val) : K → ℤ) j =
      e.elim 0 val - (v k).elim 0 val := by
    rw [finsum_eq_single _ k fun j hj => Pi.single_eq_of_ne hj _, Pi.single_eq_same]
  unfold total
  rw [hsum, finsum_add_distrib (h.support val), hsingle]
  · omega
  · apply Set.Finite.subset (Set.finite_singleton k)
    exact Pi.support_single_subset

theorem FiniteSupport.writeAll (es : List (K × Option V)) :
    FiniteSupport (writeAll v es) := by
  induction es generalizing v with
  | nil => exact h
  | cons e es ih => exact ih (h.update e.1 e.2)

theorem total_drops {es : List (K × V)} (hn : (es.map Prod.fst).Nodup) (hv : ∀ e ∈ es, v e.1 = some e.2) :
    total val (Ledger.writeAll v (drops (es.map Prod.fst))) = total val v - (es.map fun e => val e.2).sum := by
  induction es generalizing v with
  | nil => simp [drops, Ledger.writeAll]
  | cons e es ih =>
    obtain ⟨hne, hn⟩ := List.nodup_cons.mp hn
    have hv' : ∀ a ∈ es, Function.update v e.1 none a.1 = some a.2 := by
      intro a ha
      have : a.1 ≠ e.1 := fun he => hne (he ▸ List.mem_map_of_mem ha)
      rw [Function.update_of_ne this]
      exact hv a (List.mem_cons_of_mem _ ha)
    have := ih (h.update e.1 none) hn hv'
    simp only [List.map_cons, drops, Ledger.writeAll, List.sum_cons] at this ⊢
    rw [this, total_update h, hv e List.mem_cons_self]
    simp only [Option.elim_none, Option.elim_some]
    omega

theorem total_puts_le {es : List (K × V)} (hv : ∀ k c, v k = some c → 0 ≤ val c) (he : ∀ e ∈ es, 0 ≤ val e.2) :
    total val (Ledger.writeAll v (puts es)) ≤ total val v + (es.map fun e => val e.2).sum := by
  induction es generalizing v with
  | nil => simp [puts, Ledger.writeAll]
  | cons e es ih =>
    have hv' : ∀ k c, Function.update v e.1 (some e.2) k = some c → 0 ≤ val c :=
      update_values (P := fun c => 0 ≤ val c) hv fun c hc => Option.some.inj hc ▸ he e List.mem_cons_self
    have hold : 0 ≤ (v e.1).elim 0 val := by
      cases ho : v e.1 with
      | none => exact le_refl 0
      | some c => exact hv _ c ho
    have := ih (h.update e.1 (some e.2)) hv' fun a ha => he a (List.mem_cons_of_mem _ ha)
    rw [total_update h] at this
    simp only [List.map_cons, puts, Ledger.writeAll, List.sum_cons, Option.elim_some] at this ⊢
    omega

end

end AvilaNode.Ledger
