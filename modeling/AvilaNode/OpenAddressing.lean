import Mathlib.Data.List.Basic
import Mathlib.Data.Nat.Find
import Mathlib.Data.Nat.ModEq

/-! Open addressing with linear probing: a table of slots, probed cyclically from a key's home. -/

namespace AvilaNode.OpenAddressing

variable {σ κ : Type}

def probe (stop : σ → Bool) (slots : List σ) (mask : ℕ) : ℕ → ℕ → Option ℕ
  | 0, _ => none
  | fuel + 1, i =>
    match slots[i]? with
    | none => none
    | some s => if stop s then some i else probe stop slots mask fuel ((i + 1) &&& mask)

def step (slots : List σ) (home d : ℕ) : Option σ := slots[(home + d) % slots.length]?

variable {slots : List σ} {mask : ℕ} {stop : σ → Bool}

theorem step_some (hn : 0 < slots.length) (home d : ℕ) : ∃ s, step slots home d = some s := by
  unfold step
  rw [List.getElem?_eq_getElem (Nat.mod_lt _ hn)]
  exact ⟨_, rfl⟩

theorem step_inj {home d e : ℕ} (hd : d < slots.length) (he : e < slots.length)
    (h : (home + d) % slots.length = (home + e) % slots.length) : d = e := by
  have hmod : d ≡ e [MOD slots.length] := Nat.ModEq.add_left_cancel' home h
  rw [Nat.ModEq, Nat.mod_eq_of_lt hd, Nat.mod_eq_of_lt he] at hmod
  exact hmod

theorem step_surj (home : ℕ) {j : ℕ} (hj : j < slots.length) :
    ∃ d, d < slots.length ∧ (home + d) % slots.length = j := by
  have hn : 0 < slots.length := by omega
  have hm := Nat.mod_lt home hn
  refine ⟨(j + (slots.length - home % slots.length)) % slots.length, Nat.mod_lt _ hn, ?_⟩
  rw [Nat.add_mod_mod, ← Nat.mod_add_mod]
  have hsum : home % slots.length + (j + (slots.length - home % slots.length)) = j + slots.length := by omega
  rw [hsum, Nat.add_mod_right, Nat.mod_eq_of_lt hj]

theorem probe_step (hmask : ∀ i, i &&& mask = i % slots.length) (hn : 0 < slots.length) {home d fuel a : ℕ}
    (had : a ≤ d) (hfuel : d - a < fuel)
    (hbefore : ∀ e, a ≤ e → e < d → ∀ s, step slots home e = some s → stop s = false)
    (hstop : ∀ s, step slots home d = some s → stop s = true) :
    probe stop slots mask fuel ((home + a) % slots.length) = some ((home + d) % slots.length) := by
  induction fuel generalizing a with
  | zero => omega
  | succ fuel ih =>
    obtain ⟨s, hs⟩ := step_some hn home a
    have hget : slots[(home + a) % slots.length]? = some s := hs
    rw [probe, hget]
    dsimp only
    rcases Nat.eq_or_lt_of_le had with rfl | hlt
    · rw [hstop s hs, if_pos rfl]
    · rw [hbefore a (le_refl _) hlt s hs, if_neg (by simp), hmask, Nat.mod_add_mod, Nat.add_assoc]
      exact ih hlt (by omega) fun e he => hbefore e (by omega)

section

variable (used : σ → Bool) (key : σ → κ) (home : κ → ℕ)

def Chained (slots : List σ) : Prop :=
  ∀ (j : ℕ) s, slots[j]? = some s → used s = true → ∃ d, d < slots.length ∧ (home (key s) + d) % slots.length = j ∧
    ∀ e < d, ∀ t, step slots (home (key s)) e = some t → used t = true

def Distinct (slots : List σ) : Prop :=
  ∀ (i j : ℕ) s t, slots[i]? = some s → slots[j]? = some t → used s = true → used t = true → key s = key t → i = j

variable {used key home}

variable {j : ℕ}

variable {s : σ}

theorem probe_used (hmask : ∀ i, i &&& mask = i % slots.length) (hchain : Chained used key home slots)
    (hdistinct : Distinct used key slots) (hj : slots[j]? = some s) (hs : used s = true) (hstop : stop s = true)
    (honly : ∀ t, stop t = true → used t = true → key t = key s) :
    probe stop slots mask slots.length (home (key s) &&& mask) = some j := by
  obtain ⟨d, hd, rfl, hbefore⟩ := hchain j s hj hs
  have hn : 0 < slots.length := by omega
  rw [hmask]
  refine probe_step hmask hn (Nat.zero_le d) (by omega) ?_ ?_
  · intro e _ he t ht
    rw [← Bool.not_eq_true]
    intro hcontra
    have hused := hbefore e he t ht
    have := hdistinct _ _ t s ht hj hused hs (honly t hcontra hused)
    exact absurd (step_inj (by omega) hd this) (by omega)
  · intro t ht
    have hst : s = t := Option.some.inj (hj.symm.trans ht)
    exact hst ▸ hstop

theorem probe_unused (at_ : ℕ) (stop : σ → Bool) (hmask : ∀ i, i &&& mask = i % slots.length)
    (hunused : ∀ t, used t = false → stop t = true) (hnone : ∀ t ∈ slots, used t = true → stop t = false)
    (hroom : ∃ t ∈ slots, used t = false) :
    ∃ d s, d < slots.length ∧ probe stop slots mask slots.length (at_ &&& mask) = some ((at_ + d) % slots.length) ∧
      step slots at_ d = some s ∧ used s = false ∧ ∀ e < d, ∀ t, step slots at_ e = some t → used t = true := by
  obtain ⟨t, ht, hu⟩ := hroom
  obtain ⟨j, hj, rfl⟩ := List.mem_iff_getElem.mp ht
  have hn : 0 < slots.length := by omega
  obtain ⟨d₀, hd₀, hpos⟩ := step_surj at_ hj
  have hex : ∃ d, ∃ s, step slots at_ d = some s ∧ used s = false :=
    ⟨d₀, _, by rw [step, hpos, List.getElem?_eq_getElem hj], hu⟩
  classical
  obtain ⟨s, hs, hus⟩ := Nat.find_spec hex
  have hmin : ∀ e < Nat.find hex, ∀ t, step slots at_ e = some t → used t = true := by
    intro e he t ht
    by_contra hcontra
    exact Nat.find_min hex he ⟨t, ht, by simpa using hcontra⟩
  have hle : Nat.find hex ≤ d₀ := Nat.find_min' hex ⟨_, by rw [step, hpos, List.getElem?_eq_getElem hj], hu⟩
  refine ⟨Nat.find hex, s, by omega, ?_, hs, hus, hmin⟩
  rw [hmask]
  refine probe_step hmask hn (Nat.zero_le _) (by omega) ?_ ?_
  · intro e _ he t ht
    exact hnone t (List.mem_of_getElem? ht) (hmin e he t ht)
  · intro t ht
    have hst : s = t := Option.some.inj (hs.symm.trans ht)
    exact hunused t (hst ▸ hus)

theorem chained_set (hchain : Chained used key home slots) (hs : used s = true)
    (hown : ∃ d, d < slots.length ∧ (home (key s) + d) % slots.length = j ∧
      ∀ e < d, ∀ t, step slots (home (key s)) e = some t → used t = true) :
    Chained used key home (slots.set j s) := by
  have hstep : ∀ at_ e t, step (slots.set j s) at_ e = some t → t = s ∨ step slots at_ e = some t := by
    intro at_ e t ht
    rw [step, List.length_set, List.getElem?_set] at ht
    split at ht
    · split at ht
      · exact Or.inl (Option.some.inj ht).symm
      · cases ht
    · exact Or.inr ht
  have keep : ∀ at_ d, (∀ e < d, ∀ t, step slots at_ e = some t → used t = true) →
      ∀ e < d, ∀ t, step (slots.set j s) at_ e = some t → used t = true := by
    intro at_ d h e he t ht
    rcases hstep at_ e t ht with rfl | ht
    · exact hs
    · exact h e he t ht
  intro i t ht hu
  rw [List.getElem?_set] at ht
  rw [List.length_set]
  split at ht
  · rename_i hij
    split at ht
    · obtain rfl := Option.some.inj ht
      obtain ⟨d, hd, hpos, hbefore⟩ := hown
      exact ⟨d, hd, hij ▸ hpos, keep _ d hbefore⟩
    · cases ht
  · obtain ⟨d, hd, hpos, hbefore⟩ := hchain i t ht hu
    exact ⟨d, hd, hpos, keep _ d hbefore⟩

theorem distinct_set (hdistinct : Distinct used key slots)
    (hown : ∀ (i : ℕ) t, slots[i]? = some t → used t = true → key t = key s → i = j) :
    Distinct used key (slots.set j s) := by
  intro i i' t t' ht ht' hu hu' hk
  rw [List.getElem?_set] at ht ht'
  split at ht
  · rename_i hij
    split at ht
    · obtain rfl := Option.some.inj ht
      split at ht'
      · rename_i hij'
        omega
      · exact hij ▸ (hown i' t' ht' hu' hk.symm).symm
    · cases ht
  · split at ht'
    · rename_i hij'
      split at ht'
      · obtain rfl := Option.some.inj ht'
        exact hij' ▸ hown i t ht hu hk
      · cases ht'
    · exact hdistinct i i' t t' ht ht' hu hu' hk

end

theorem room_of_countP {used : σ → Bool} (h : slots.countP used < slots.length) :
    ∃ t ∈ slots, used t = false := by
  by_contra hall
  push Not at hall
  have : slots.countP used = slots.length := List.countP_eq_length.mpr fun t ht => by simpa using hall t ht
  omega

end AvilaNode.OpenAddressing
