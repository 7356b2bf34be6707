import AvilaNode.Layers
import Mathlib.Algebra.Order.BigOperators.Group.List

/-! The rows of a table as a list, and sums over them. -/

namespace AvilaNode.Layers

variable {K V : Type} [DecidableEq K]

omit [DecidableEq K] in
theorem keys_eq_toList (t : Table K V) : t.keys = (toList t).map Prod.fst := by
  simp [toList, AList.keys, List.keys, List.map_map, Function.comp_def]

omit [DecidableEq K] in
theorem toList_nodup (t : Table K V) : (toList t).Nodup := by
  have hkeys : t.keys.Nodup := t.nodupKeys
  rw [keys_eq_toList] at hkeys
  exact hkeys.of_map

theorem mem_keys_iff {t : Table K V} {k : K} : k ∈ t.keys ↔ (t.lookup k).isSome := by
  rw [AList.lookup_isSome, AList.mem_keys]

theorem length_keys_erase {t : Table K V} {k : K} (h : (t.lookup k).isSome) :
    (t.erase k).keys.length + 1 = t.keys.length := by
  have hmem := mem_keys_iff.mpr h
  have hpos := List.length_pos_of_mem hmem
  rw [AList.keys_erase, List.length_erase_of_mem hmem]
  omega

theorem length_keys_insert {t : Table K V} {k : K} (h : (t.lookup k).isSome) (v : V) :
    (t.insert k v).keys.length = t.keys.length := by
  rw [AList.keys_insert, List.length_cons, ← AList.keys_erase, length_keys_erase h]

theorem length_keys_fresh {t : Table K V} {k : K} (h : t.lookup k = none) (v : V) :
    (t.insert k v).keys.length = t.keys.length + 1 := by
  have hmem : k ∉ t.keys := by simp [mem_keys_iff, h]
  rw [AList.keys_insert, List.length_cons, List.erase_of_not_mem hmem]

theorem toList_insert (t : Table K V) (k : K) (v : V) : toList (t.insert k v) = (k, v) :: toList (t.erase k) := rfl

theorem toList_erase_none {t : Table K V} {k : K} (h : t.lookup k = none) : toList (t.erase k) = toList t := by
  unfold toList
  congr 1
  apply List.kerase_of_notMem_keys
  exact AList.lookup_eq_none.mp h

theorem toList_erase_perm {t : Table K V} {k : K} {v : V} (h : t.lookup k = some v) :
    (toList t).Perm ((k, v) :: toList (t.erase k)) := by
  rw [← toList_insert]
  apply List.Perm.map
  apply List.lookup_ext t.nodupKeys (t.insert k v).nodupKeys
  intro j w
  change w ∈ t.lookup j ↔ w ∈ (t.insert k v).lookup j
  rw [lookup_insert_eq]
  split
  · next hj => rw [hj, h]
  · rfl

section

variable {M : Type} [AddCommMonoid M]

def total (f : V → M) (t : Table K V) : M := ((toList t).map fun row => f row.2).sum

variable {f : V → M} {t : Table K V} {k : K} {v : V}

theorem total_erase (h : t.lookup k = some v) : total f t = f v + total f (t.erase k) := by
  unfold total
  rw [((toList_erase_perm h).map _).sum_eq, List.map_cons, List.sum_cons]

theorem total_insert (f : V → M) (t : Table K V) (k : K) (v : V) :
    total f (t.insert k v) = f v + total f (t.erase k) := by
  unfold total
  rw [toList_insert, List.map_cons, List.sum_cons]

theorem total_insert_fresh (h : t.lookup k = none) (v : V) : total f (t.insert k v) = f v + total f t := by
  rw [total_insert]
  unfold total
  rw [toList_erase_none h]

theorem total_insert_same {w : V} (h : t.lookup k = some v) (hf : f w = f v) : total f (t.insert k w) =
    total f t := by
  rw [total_erase h, total_insert, hf]

def picked (f : V → M) (t : Table K V) (ks : List K) : M := ((ks.filterMap t.lookup).map f).sum

theorem picked_eq (f : V → M) (t : Table K V) (ks : List K) :
    picked f t ks = (ks.map fun k => ((t.lookup k).map f).getD 0).sum := by
  unfold picked
  induction ks with
  | nil => rfl
  | cons k ks ih =>
    rw [List.map_cons, List.sum_cons, ← ih, List.filterMap_cons]
    cases t.lookup k with
    | none => exact (zero_add _).symm
    | some v => rw [List.map_cons, List.sum_cons, Option.map_some, Option.getD_some]

theorem picked_perm (f : V → M) (t : Table K V) {ks ks' : List K} (h : ks.Perm ks') : picked f t ks =
    picked f t ks' :=
  ((h.filterMap _).map f).sum_eq

theorem picked_append (f : V → M) (t : Table K V) (ks ks' : List K) :
    picked f t (ks ++ ks') = picked f t ks + picked f t ks' := by
  rw [picked, List.filterMap_append, List.map_append, List.sum_append]
  rfl

theorem picked_cons (f : V → M) (h : t.lookup k = some v) (ks : List K) :
    picked f t (k :: ks) = f v + picked f t ks := by
  rw [picked_eq, picked_eq, List.map_cons, List.sum_cons, h, Option.map_some, Option.getD_some]

variable {ks : List K}

theorem picked_congr {t t' : Table K V} (h : ∀ k ∈ ks, (t'.lookup k).map f = (t.lookup k).map f) :
    picked f t' ks = picked f t ks := by
  rw [picked_eq, picked_eq]
  congr 1
  apply List.map_congr_left
  intro k hk
  rw [h k hk]

theorem picked_insert {v w : V} {d : M} (h : t.lookup k = some v) (hf : f w = f v + d) (hn : ks.Nodup) :
    picked f (t.insert k w) ks = picked f t ks + if k ∈ ks then d else 0 := by
  have hother : ∀ {ks : List K}, k ∉ ks → picked f (t.insert k w) ks = picked f t ks := by
    intro ks hk
    apply picked_congr
    intro j hj
    rw [lookup_insert_eq, if_neg]
    rintro rfl
    exact hk hj
  split
  · next hk =>
    have hperm := List.perm_cons_erase hk
    have hrest := hother fun hmem => ((hn.mem_erase_iff).mp hmem).1 rfl
    have hw : (t.insert k w).lookup k = some w := by rw [lookup_insert_eq, if_pos rfl]
    rw [picked_perm f _ hperm, picked_perm f t hperm, picked_cons f hw, picked_cons f h, hrest, hf, add_right_comm]
  · next hk => rw [hother hk, add_zero]

theorem total_eq_picked (f : V → M) (t : Table K V) : total f t = picked f t t.keys := by
  unfold total picked
  congr 1
  rw [keys_eq_toList, List.filterMap_map]
  have hrows : ∀ row ∈ toList t, (t.lookup ∘ Prod.fst) row = some row.2 := fun row hrow => mem_toList.mp hrow
  rw [List.filterMap_congr hrows, List.filterMap_eq_map', List.map_map]
  rfl

theorem picked_le_total [PartialOrder M] [IsOrderedAddMonoid M] (hf : ∀ v, 0 ≤ f v) (t : Table K V) (hn : ks.Nodup) :
    picked f t ks ≤ total f t := by
  have hrows : picked f t ks = ((ks.filterMap fun k => (t.lookup k).map (Prod.mk k)).map fun row => f row.2).sum := by
    rw [List.map_filterMap, picked, List.map_filterMap]
    simp only [Option.map_map, Function.comp_def]
  have hnodup : (ks.filterMap fun k => (t.lookup k).map (Prod.mk k)).Nodup := by
    apply hn.filterMap
    intro k k' row hk hk'
    obtain ⟨v, -, rfl⟩ := Option.map_eq_some_iff.mp hk
    obtain ⟨v', -, heq⟩ := Option.map_eq_some_iff.mp hk'
    exact (Prod.mk.inj heq).1.symm
  have hsub : (ks.filterMap fun k => (t.lookup k).map (Prod.mk k)) ⊆ toList t := by
    intro row hrow
    obtain ⟨k, -, hk⟩ := List.mem_filterMap.mp hrow
    obtain ⟨v, hv, rfl⟩ := Option.map_eq_some_iff.mp hk
    exact mem_toList.mpr hv
  obtain ⟨l, hperm, hl⟩ := List.subperm_of_subset hnodup hsub
  rw [hrows, ← (hperm.map _).sum_eq]
  apply (hl.map _).sum_le_sum
  intro x hx
  obtain ⟨row, -, rfl⟩ := List.mem_map.mp hx
  exact hf row.2

end

variable {J : Type} [DecidableEq J] {keys : V → List J} {index : Table J K} {t : Table K V} {k : K} {v : V}

def Inverted (keys : V → List J) (t : Table K V) (index : Table J K) : Prop :=
  ∀ j k, index.lookup j = some k ↔ ∃ v, t.lookup k = some v ∧ j ∈ keys v

theorem Inverted.congr {t' : Table K V} (h : Inverted keys t index)
    (ht : ∀ k, (t'.lookup k).map keys = (t.lookup k).map keys) : Inverted keys t' index := by
  have hiff : ∀ (t : Table K V) j k, (∃ v, t.lookup k = some v ∧ j ∈ keys v) ↔
      ∃ js, (t.lookup k).map keys = some js ∧ j ∈ js := by
    intro t j k
    simp only [Option.map_eq_some_iff]
    constructor
    · rintro ⟨v, hv, hj⟩
      exact ⟨keys v, ⟨v, hv, rfl⟩, hj⟩
    · rintro ⟨-, ⟨v, hv, rfl⟩, hj⟩
      exact ⟨v, hv, hj⟩
  intro j k
  rw [h, hiff, hiff, ht]

theorem Inverted.erase (h : Inverted keys t index) (hk : t.lookup k = some v) :
    Inverted keys (t.erase k) (eraseAll index (keys v)) := by
  intro j i
  rw [lookup_eraseAll]
  simp only [lookup_erase_eq]
  constructor
  · intro hj
    split at hj
    · cases hj
    · next hout =>
      obtain ⟨w, hw, hmem⟩ := (h j i).mp hj
      have hne : i ≠ k := by
        rintro rfl
        rw [hk] at hw
        cases hw
        exact hout hmem
      exact ⟨w, by rw [if_neg hne]; exact hw, hmem⟩
  · rintro ⟨w, hw, hmem⟩
    split at hw
    · cases hw
    · next hne =>
      have hj := (h j i).mpr ⟨w, hw, hmem⟩
      rw [if_neg]
      · exact hj
      · intro hout
        rw [(h j k).mpr ⟨v, hk, hout⟩] at hj
        exact hne (Option.some.inj hj).symm

theorem Inverted.insert (h : Inverted keys t index) (hk : t.lookup k = none) (v : V)
    (hnew : ∀ j ∈ keys v, index.lookup j = none) :
    Inverted keys (t.insert k v) (insertAll index ((keys v).map fun j => (j, k))) := by
  intro j i
  simp only [lookup_insert_eq]
  by_cases hj : j ∈ keys v
  · rw [lookup_insertAll_of_mem _ _ j k (List.mem_map.mpr ⟨j, hj, rfl⟩)]
    · constructor
      · rintro ⟨⟩
        exact ⟨v, if_pos rfl, hj⟩
      · rintro ⟨w, hw, hmem⟩
        split at hw
        · next heq => rw [heq]
        · have hold := (h j i).mpr ⟨w, hw, hmem⟩
          rw [hnew j hj] at hold
          cases hold
    · intro w hw
      obtain ⟨j', -, heq⟩ := List.mem_map.mp hw
      exact (Prod.mk.inj heq).2.symm
  · rw [lookup_insertAll_of_notMem, h]
    · constructor
      · rintro ⟨w, hw, hmem⟩
        have hne : i ≠ k := by
          rintro rfl
          rw [hk] at hw
          cases hw
        exact ⟨w, by rw [if_neg hne]; exact hw, hmem⟩
      · rintro ⟨w, hw, hmem⟩
        split at hw
        · cases hw
          exact absurd hmem hj
        · exact ⟨w, hw, hmem⟩
    · intro w hw
      obtain ⟨j', hj', heq⟩ := List.mem_map.mp hw
      exact hj ((Prod.mk.inj heq).1 ▸ hj')

end AvilaNode.Layers
