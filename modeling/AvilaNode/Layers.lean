import Mathlib.Data.List.AList

/-! Finite tables, the views they answer, and the deltas stacked over them. -/

namespace AvilaNode.Layers

variable {K V : Type} [DecidableEq K]

abbrev View (K V : Type) := K → Option V

abbrev Table (K V : Type) := AList fun _ : K => V

abbrev Delta (K V : Type) := Table K (Option V)

def overlaid (d : Delta K V) (v : View K V) : View K V := fun k => (d.lookup k).getD (v k)

def applyEntry (t : Table K V) (k : K) : Option V → Table K V
  | some v => t.insert k v
  | none => t.erase k

def applyEntries (t : Table K V) : List (Sigma fun _ : K => Option V) → Table K V
  | [] => t
  | e :: es => applyEntries (applyEntry t e.1 e.2) es

def applyDelta (t : Table K V) (d : Delta K V) : Table K V := applyEntries t d.entries

def toList (t : Table K V) : List (K × V) := t.entries.map fun e => (e.1, e.2)

def insertAll (t : Table K V) : List (K × V) → Table K V
  | [] => t
  | e :: es => insertAll (t.insert e.1 e.2) es

def eraseAll (t : Table K V) : List K → Table K V
  | [] => t
  | k :: ks => eraseAll (t.erase k) ks

variable (t : Table K V) (v : View K V) {k : K} (es : List (K × V))

theorem lookup_insert_eq (k j : K) (v : V) :
    (t.insert k v).lookup j = if j = k then some v else t.lookup j := by
  by_cases h : j = k
  · subst h; simp
  · simp [h, AList.lookup_insert_ne h]

theorem lookup_erase_eq (k j : K) :
    (t.erase k).lookup j = if j = k then none else t.lookup j := by
  by_cases h : j = k
  · subst h; simp
  · simp [h, AList.lookup_erase_ne h]

theorem mem_iff_lookup {t : Table K V} : k ∈ t ↔ ∃ v, t.lookup k = some v := by
  rw [← AList.lookup_isSome, Option.isSome_iff_exists]

theorem mem_toList {t : Table K V} {v : V} : (k, v) ∈ toList t ↔ t.lookup k = some v := by
  rw [toList, List.mem_map]
  constructor
  · rintro ⟨⟨j, w⟩, he, h⟩
    cases h
    exact AList.mem_lookup_iff.mpr he
  · intro h
    exact ⟨⟨k, v⟩, AList.mem_lookup_iff.mp h, rfl⟩

theorem lookup_applyEntry (k j : K) (e : Option V) :
    (applyEntry t k e).lookup j = if j = k then e else t.lookup j := by
  cases e with
  | none => simp [applyEntry, lookup_erase_eq]
  | some v => simp [applyEntry, lookup_insert_eq]

theorem lookup_applyEntries (es : List (Sigma fun _ : K => Option V)) (t : Table K V) (j : K)
    (hn : es.NodupKeys) :
    (applyEntries t es).lookup j = (es.dlookup j).getD (t.lookup j) := by
  induction es generalizing t with
  | nil => simp [applyEntries]
  | cons e es ih =>
    obtain ⟨k, w⟩ := e
    rw [List.nodupKeys_cons] at hn
    rw [applyEntries, ih _ hn.2, lookup_applyEntry]
    by_cases h : j = k
    · subst h
      have : es.dlookup j = none := List.dlookup_eq_none.mpr hn.1
      simp [this]
    · rw [List.dlookup_cons_ne es (⟨k, w⟩ : Sigma fun _ : K => Option V) h, if_neg h]

theorem lookup_applyDelta (d : Delta K V) (j : K) :
    (applyDelta t d).lookup j = overlaid d t.lookup j :=
  lookup_applyEntries d.entries t j d.nodupKeys

theorem lookup_insertAll_of_notMem (j : K) (h : ∀ v, (j, v) ∉ es) :
    (insertAll t es).lookup j = t.lookup j := by
  induction es generalizing t with
  | nil => rfl
  | cons e es ih =>
    have hne : j ≠ e.1 := fun he => h e.2 (by simp [he])
    rw [insertAll, ih _ fun v hv => h v (List.mem_cons_of_mem _ hv), lookup_insert_eq, if_neg hne]

theorem lookup_insertAll_of_mem (j : K) (v : V) (h : (j, v) ∈ es) (hu : ∀ w, (j, w) ∈ es → w = v) :
    (insertAll t es).lookup j = some v := by
  induction es generalizing t with
  | nil => cases h
  | cons e es ih =>
    rw [insertAll]
    by_cases hm : (j, v) ∈ es
    · exact ih _ hm fun w hw => hu w (List.mem_cons_of_mem _ hw)
    have he : e = (j, v) := by
      rcases List.mem_cons.mp h with he | he
      · exact he.symm
      · exact absurd he hm
    have hnone : ∀ w, (j, w) ∉ es := fun w hw =>
      hm (hu w (List.mem_cons_of_mem _ hw) ▸ hw)
    rw [lookup_insertAll_of_notMem _ _ _ hnone, he, lookup_insert_eq, if_pos rfl]

theorem lookup_insertAll_toList (t u : Table K V) (j : K) :
    (insertAll t (toList u)).lookup j = (u.lookup j).or (t.lookup j) := by
  cases h : u.lookup j with
  | none =>
    rw [lookup_insertAll_of_notMem]
    · rfl
    · intro v hv
      rw [mem_toList, h] at hv
      cases hv
  | some v =>
    rw [lookup_insertAll_of_mem _ _ _ v (mem_toList.mpr h)]
    · rfl
    · intro w hw
      rw [mem_toList, h] at hw
      exact (Option.some.inj hw).symm

theorem lookup_eraseAll (ks : List K) (t : Table K V) (j : K) :
    (eraseAll t ks).lookup j = if j ∈ ks then none else t.lookup j := by
  induction ks generalizing t with
  | nil => simp [eraseAll]
  | cons k ks ih =>
    rw [eraseAll, ih, lookup_erase_eq]
    by_cases h : j = k <;> by_cases hm : j ∈ ks <;> simp [h, hm]

@[simp] theorem overlaid_empty : overlaid (∅ : Delta K V) v = v := by
  funext k; simp [overlaid]

theorem overlaid_insert (d : Delta K V) (v : View K V) (k : K) (e : Option V) :
    overlaid (d.insert k e) v = Function.update (overlaid d v) k e := by
  funext j
  by_cases h : j = k <;> simp [overlaid, lookup_insert_eq, h]

theorem overlaid_of_lookup {d : Delta K V} {e : Option V} (h : d.lookup k = some e) :
    overlaid d v k = e := by simp [overlaid, h]

theorem overlaid_of_none {d : Delta K V} (h : d.lookup k = none) :
    overlaid d v k = v k := by simp [overlaid, h]

end AvilaNode.Layers
