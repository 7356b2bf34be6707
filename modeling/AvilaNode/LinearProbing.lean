import Mathlib.Data.List.Basic
import Mathlib.Data.Nat.Basic
import Mathlib.Tactic.Cases

/-! Linear probing on a circle of slots, with deletions that shift the following entries back. -/

namespace AvilaNode.LinearProbing

open Function

def next (n i : ℕ) : ℕ := if i + 1 = n then 0 else i + 1

theorem next_lt {n i : ℕ} (hi : i < n) : next n i < n := by
  unfold next
  split_ifs <;> omega

def Before (h p q : ℕ) : Prop := h ≤ q ∧ q < p ∨ p < h ∧ (h ≤ q ∨ q < p)

theorem before_next {n h i q : ℕ} (hq : q < n) (hb : Before h (next n i) q) : q = i ∨ Before h i q := by
  unfold Before next at *
  split_ifs at hb <;> omega

theorem before_total {h p q : ℕ} (hne : p ≠ q) : Before h p q ∨ Before h q p := by
  unfold Before
  omega

def steps (n i g : ℕ) : ℕ := if i ≤ g then g - i else g + n - i

theorem steps_next {n i g : ℕ} (hi : i < n) (hg : g < n) (hne : i ≠ g) : steps n (next n i) g < steps n i g := by
  unfold steps next
  split_ifs <;> omega

theorem steps_lt {n i g : ℕ} (hi : i < n) (hg : g < n) : steps n i g < n := by
  unfold steps
  split_ifs <;> omega

/-- An entry at `p` with home `h` cannot be reached once `hole` is empty. -/
def Crossed (hole p h : ℕ) : Prop := if hole < p then h ≤ hole ∨ p < h else h ≤ hole ∧ p < h

instance (hole p h : ℕ) : Decidable (Crossed hole p h) := by
  unfold Crossed
  infer_instance

variable {κ α : Type} {n : ℕ} {key : α → κ} {home : κ → ℕ} {t : ℕ → Option α} {k : κ}

section

variable (n : ℕ) (key : α → κ) (home : κ → ℕ)

def probe [DecidableEq κ] (t : ℕ → Option α) (k : κ) : ℕ → ℕ → Option (ℕ × Bool)
  | 0, _ => none
  | fuel + 1, i =>
    match t i with
    | none => some (i, false)
    | some e => if key e = k then some (i, true) else probe t k fuel (next n i)

def vacant (t : ℕ → Option α) : ℕ → ℕ → Option ℕ
  | 0, _ => none
  | fuel + 1, i =>
    match t i with
    | none => some i
    | some _ => vacant t fuel (next n i)

def shift : ℕ → (ℕ → Option α) → ℕ → ℕ → Option ((ℕ → Option α) × ℕ)
  | 0, _, _, _ => none
  | fuel + 1, t, hole, j =>
    match t j with
    | none => some (t, hole)
    | some e =>
      if Crossed hole j (home (key e)) then shift fuel (update t hole (some e)) j (next n j)
      else shift fuel t hole (next n j)

def Held (t : ℕ → Option α) (e : α) : Prop := ∃ p < n, t p = some e

def load (t : ℕ → Option α) : ℕ := (List.range n).countP fun p => (t p).isSome

structure Probed (t : ℕ → Option α) : Prop where
  home_lt : ∀ k, home k < n
  reach : ∀ p < n, ∀ e, t p = some e → ∀ q < n, Before (home (key e)) p q → t q ≠ none
  distinct : ∀ p < n, ∀ q < n, ∀ e e', t p = some e → t q = some e' → key e = key e' → p = q
  room : load n t < n

end

theorem exists_gap (h : load n t < n) : ∃ g < n, t g = none := by
  by_contra hno
  have hall : load n t = (List.range n).length := by
    rw [load, List.countP_eq_length]
    intro p hp
    rw [Option.isSome_iff_ne_none]
    exact fun hp' => hno ⟨p, List.mem_range.mp hp, hp'⟩
  rw [hall, List.length_range] at h
  exact lt_irrefl n h

theorem load_update {p : ℕ} (hp : p < n) (x : Option α) :
    load n (update t p x) + (t p).isSome.toNat = load n t + x.isSome.toNat := by
  unfold load
  induction n with
  | zero => omega
  | succ n ih =>
    rw [List.range_succ, List.countP_append, List.countP_append]
    rcases Nat.lt_succ_iff_lt_or_eq.mp hp with hlt | rfl
    · have h := ih hlt
      have hne : n ≠ p := Nat.ne_of_gt hlt
      simp only [List.countP_singleton, update_of_ne hne]
      omega
    · have hrest : (List.range p).countP (fun q => (update t p x q).isSome) = (List.range p).countP fun q =>
        (t q).isSome := by
        apply List.countP_congr
        intro q hq
        rw [update_of_ne (Nat.ne_of_lt (List.mem_range.mp hq))]
      rw [hrest]
      simp only [List.countP_singleton, update_self]
      cases t p <;> cases x <;> simp

theorem probe_spec [DecidableEq κ] {g fuel i : ℕ} (hg : g < n) (hgap : t g = none) (hi : i < n)
    (hfuel : steps n i g < fuel)
    (hpast : ∀ q < n, Before (home k) i q → ∃ e, t q = some e ∧ key e ≠ k) :
    (∃ p < n, ∃ e, probe n key t k fuel i = some (p, true) ∧ t p = some e ∧ key e = k) ∨
      ∃ p < n, probe n key t k fuel i = some (p, false) ∧ t p = none ∧
        ∀ q < n, Before (home k) p q → ∃ e, t q = some e ∧ key e ≠ k := by
  induction fuel generalizing i with
  | zero => omega
  | succ fuel ih =>
    rw [probe]
    cases hslot : t i with
    | none => exact .inr ⟨i, hi, rfl, hslot, hpast⟩
    | some e =>
      by_cases hk : key e = k
      · exact .inl ⟨i, hi, e, by simp [hk], hslot, hk⟩
      have hne : i ≠ g := by
        rintro rfl
        simp [hslot] at hgap
      have hstep := steps_next hi hg hne
      simp only [if_neg hk]
      apply ih (next_lt hi) (by omega)
      intro q hq hb
      rcases before_next hq hb with rfl | hb
      · exact ⟨e, hslot, hk⟩
      · exact hpast q hq hb

theorem vacant_eq_probe (fuel i : ℕ) : vacant n t fuel i = (probe n (fun _ => false) t true fuel i).map Prod.fst := by
  induction fuel generalizing i with
  | zero => rfl
  | succ fuel ih =>
    rw [vacant, probe]
    cases t i with
    | none => rfl
    | some e => exact ih (next n i)

theorem not_before_self (h q : ℕ) : ¬Before h h q := by
  unfold Before
  omega

variable {e : α}

section

variable (ht : Probed n key home t)
include ht

theorem Probed.probe_cases [DecidableEq κ] (k : κ) :
    (∃ p < n, ∃ e, probe n key t k n (home k) = some (p, true) ∧ t p = some e ∧ key e = k) ∨
      ∃ p < n, probe n key t k n (home k) = some (p, false) ∧ t p = none ∧
        ∀ q < n, Before (home k) p q → ∃ e, t q = some e ∧ key e ≠ k := by
  obtain ⟨g, hg, hgap⟩ := exists_gap ht.room
  exact probe_spec hg hgap (ht.home_lt k) (steps_lt (ht.home_lt k) hg) fun q _ hb => absurd hb (not_before_self _ _)

variable {p : ℕ}

theorem Probed.probe_held [DecidableEq κ] (hp : p < n) (hslot : t p = some e) :
    probe n key t (key e) n (home (key e)) = some (p, true) := by
  rcases ht.probe_cases (key e) with ⟨q, hq, e', hprobe, hslot', hkey⟩ | ⟨q, hq, -, hnone, hpast⟩
  · rw [hprobe, ht.distinct q hq p hp e' e hslot' hslot hkey]
  exfalso
  have hne : p ≠ q := by
    rintro rfl
    simp [hslot] at hnone
  rcases @before_total (home (key e)) p q hne with hb | hb
  · exact ht.reach p hp e hslot q hq hb hnone
  · obtain ⟨e', he', hkey⟩ := hpast p hp hb
    rw [hslot] at he'
    cases he'
    exact hkey rfl

theorem Probed.probe_absent [DecidableEq κ] (habsent : ∀ e, Held n t e → key e ≠ k) :
    ∃ p < n, probe n key t k n (home k) = some (p, false) ∧ t p = none ∧
      ∀ q < n, Before (home k) p q → t q ≠ none := by
  rcases ht.probe_cases k with ⟨p, hp, e, -, hslot, hkey⟩ | ⟨p, hp, hprobe, hnone, hpast⟩
  · exact absurd hkey (habsent e ⟨p, hp, hslot⟩)
  · refine ⟨p, hp, hprobe, hnone, fun q hq hb hq' => ?_⟩
    obtain ⟨e, he, -⟩ := hpast q hq hb
    simp [hq'] at he

omit ht in
theorem vacant_spec {h : ℕ} (hh : h < n) (hroom : load n t < n) :
    ∃ p < n, vacant n t n h = some p ∧ t p = none ∧ ∀ q < n, Before h p q → t q ≠ none := by
  obtain ⟨g, hg, hgap⟩ := exists_gap hroom
  rcases @probe_spec Bool α n (fun _ => false) (fun _ => h) t true _ g n h hg hgap hh (steps_lt hh hg)
    fun q _ hb => absurd hb (not_before_self _ _) with ⟨p, -, e, -, -, hkey⟩ | ⟨p, hp, hprobe, hnone, hpast⟩
  · cases hkey
  · refine ⟨p, hp, by rw [vacant_eq_probe, hprobe]; rfl, hnone, fun q hq hb hq' => ?_⟩
    obtain ⟨e, he, -⟩ := hpast q hq hb
    simp [hq'] at he

theorem Probed.set {e e' : α} (hp : p < n) (hslot : t p = some e) (hkey : key e' = key e) :
    Probed n key home (update t p (some e')) := by
  have hkeys : ∀ q x, update t p (some e') q = some x → ∃ y, t q = some y ∧ key y = key x := by
    intro q x hx
    by_cases hq : q = p
    · subst hq
      rw [update_self] at hx
      cases hx
      exact ⟨e, hslot, hkey.symm⟩
    · rw [update_of_ne hq] at hx
      exact ⟨x, hx, rfl⟩
  have hnone : ∀ q, update t p (some e') q = none → t q = none := by
    intro q hx
    by_cases hq : q = p
    · subst hq
      simp at hx
    · rwa [update_of_ne hq] at hx
  refine ⟨ht.home_lt, ?_, ?_, ?_⟩
  · intro q hq x hx r hr hb hempty
    obtain ⟨y, hy, hxy⟩ := hkeys q x hx
    rw [← hxy] at hb
    exact ht.reach q hq y hy r hr hb (hnone r hempty)
  · intro q hq r hr x x' hx hx' hxx
    obtain ⟨y, hy, hxy⟩ := hkeys q x hx
    obtain ⟨y', hy', hxy'⟩ := hkeys r x' hx'
    exact ht.distinct q hq r hr y y' hy hy' (hxy.trans (hxx.trans hxy'.symm))
  · have hload := @load_update _ _ t p hp (some e')
    have hroom := ht.room
    rw [hslot] at hload
    simp only [Option.isSome_some, Bool.toNat_true] at hload
    omega

theorem Probed.held_set {e e' x : α} (hp : p < n) (hslot : t p = some e) (hkey : key e' = key e) :
    Held n (update t p (some e')) x ↔ x = e' ∨ Held n t x ∧ key x ≠ key e := by
  constructor
  · rintro ⟨q, hq, hx⟩
    by_cases hqp : q = p
    · subst hqp
      rw [update_self] at hx
      cases hx
      exact .inl rfl
    · rw [update_of_ne hqp] at hx
      exact .inr ⟨⟨q, hq, hx⟩, fun heq => hqp (ht.distinct q hq p hp x e hx hslot heq)⟩
  · rintro (rfl | ⟨⟨q, hq, hx⟩, hne⟩)
    · exact ⟨p, hp, update_self _ _ _⟩
    refine ⟨q, hq, ?_⟩
    rw [update_of_ne, hx]
    rintro rfl
    rw [hslot] at hx
    cases hx
    exact hne rfl

theorem Probed.put (hp : p < n) (hnone : t p = none) (habsent : ∀ x, Held n t x → key x ≠ key e)
    (hpath : ∀ q < n, Before (home (key e)) p q → t q ≠ none) (hroom : load n t + 1 < n) :
    Probed n key home (update t p (some e)) := by
  have hkept : ∀ q, t q ≠ none → update t p (some e) q ≠ none := by
    intro q hq
    by_cases hqp : q = p
    · subst hqp
      simp
    · rwa [update_of_ne hqp]
  have hcases : ∀ q < n, ∀ x, update t p (some e) q = some x → q = p ∧ x = e ∨ q ≠ p ∧ t q = some x ∧
    key x ≠ key e := by
    intro q hq x hx
    by_cases hqp : q = p
    · subst hqp
      rw [update_self] at hx
      cases hx
      exact .inl ⟨rfl, rfl⟩
    · rw [update_of_ne hqp] at hx
      exact .inr ⟨hqp, hx, habsent x ⟨q, hq, hx⟩⟩
  refine ⟨ht.home_lt, ?_, ?_, ?_⟩
  · intro q hq x hx r hr hb
    rcases hcases q hq x hx with ⟨rfl, rfl⟩ | ⟨-, hx, -⟩
    · exact hkept r (hpath r hr hb)
    · exact hkept r (ht.reach q hq x hx r hr hb)
  · intro q hq r hr x x' hx hx' hkey
    rcases hcases q hq x hx with ⟨hqp, rfl⟩ | ⟨-, hx, hne⟩ <;> rcases hcases r hr x' hx' with
      ⟨hrp, rfl⟩ | ⟨-, hx', hne'⟩
    · rw [hqp, hrp]
    · exact absurd hkey.symm hne'
    · exact absurd hkey hne
    · exact ht.distinct q hq r hr x x' hx hx' hkey
  · have hload := @load_update _ _ t p hp (some e)
    rw [hnone] at hload
    simp only [Option.isSome_some, Option.isSome_none, Bool.toNat_true, Bool.toNat_false] at hload
    omega

theorem Probed.congr {t' : ℕ → Option α} (h : ∀ p < n, (t' p).map key = (t p).map key) : Probed n key home t' := by
  have hsome : ∀ p < n, ∀ e, t' p = some e → ∃ e', t p = some e' ∧ key e' = key e := by
    intro p hp e he
    have hp' := h p hp
    rw [he, Option.map_some, eq_comm, Option.map_eq_some_iff] at hp'
    exact hp'
  refine ⟨ht.home_lt, ?_, ?_, ?_⟩
  · intro p hp e he q hq hb hnone
    obtain ⟨e', he', hkey⟩ := hsome p hp e he
    rw [← hkey] at hb
    have hq' := h q hq
    rw [hnone, Option.map_none, eq_comm, Option.map_eq_none_iff] at hq'
    exact ht.reach p hp e' he' q hq hb hq'
  · intro p hp q hq e e' he he' hkey
    obtain ⟨x, hx, hxk⟩ := hsome p hp e he
    obtain ⟨y, hy, hyk⟩ := hsome q hq e' he'
    exact ht.distinct p hp q hq x y hx hy (hxk.trans (hkey.trans hyk.symm))
  · have hload : load n t' = load n t := by
      apply List.countP_congr
      intro p hp
      have hp' := congrArg Option.isSome (h p (List.mem_range.mp hp))
      rw [Option.isSome_map, Option.isSome_map] at hp'
      rw [hp']
    exact hload.symm ▸ ht.room

end

theorem held_put {p : ℕ} {e x : α} (hp : p < n) (hnone : t p = none) :
    Held n (update t p (some e)) x ↔ x = e ∨ Held n t x := by
  constructor
  · rintro ⟨q, hq, hx⟩
    by_cases hqp : q = p
    · subst hqp
      rw [update_self] at hx
      cases hx
      exact .inl rfl
    · rw [update_of_ne hqp] at hx
      exact .inr ⟨q, hq, hx⟩
  · rintro (rfl | ⟨q, hq, hx⟩)
    · exact ⟨p, hp, update_self _ _ _⟩
    refine ⟨q, hq, ?_⟩
    rw [update_of_ne, hx]
    rintro rfl
    rw [hnone] at hx
    cases hx

structure Shifting (n : ℕ) (key : α → κ) (home : κ → ℕ) (t : ℕ → Option α) (hole j : ℕ) : Prop where
  home_lt : ∀ k, home k < n
  hole_lt : hole < n
  next_lt : j < n
  apart : j ≠ hole
  full : t hole ≠ none
  reach : ∀ p < n, ∀ e, t p = some e → ∀ q < n, Before (home (key e)) p q → t q ≠ none
  passed : ∀ p < n, p ≠ hole → Before hole j p → ∃ e, t p = some e ∧ ¬Crossed hole p (home (key e))

variable {hole j : ℕ}

section

variable (h : Shifting n key home t hole j)
include h

theorem Shifting.skip (hgap : ∃ g < n, t g = none) (hslot : t j = some e) (hcross : ¬Crossed hole j (home (key e))) :
    Shifting n key home t hole (next n j) := by
  have hpassed : ∀ p < n, p ≠ hole → Before hole (next n j) p → ∃ e, t p = some e ∧
    ¬Crossed hole p (home (key e)) := by
    intro p hp hne hb
    rcases before_next hp hb with rfl | hb
    · exact ⟨e, hslot, hcross⟩
    · exact h.passed p hp hne hb
  refine ⟨h.home_lt, h.hole_lt, LinearProbing.next_lt h.next_lt, ?_, h.full, h.reach, hpassed⟩
  -- the whole circle would be occupied
  rintro hround
  obtain ⟨g, hg, hnone⟩ := hgap
  have hgj : g ≠ j := by
    rintro rfl
    simp [hslot] at hnone
  have hgh : g ≠ hole := fun heq => h.full (heq ▸ hnone)
  have hb : Before hole j g := by
    unfold next at hround
    unfold Before
    split_ifs at hround <;> omega
  obtain ⟨e', he', -⟩ := h.passed g hg hgh hb
  simp [hnone] at he'

theorem Shifting.move (hslot : t j = some e) (hcross : Crossed hole j (home (key e))) :
    Shifting n key home (update t hole (some e)) j (next n j) := by
  have hkept : ∀ q, t q ≠ none → update t hole (some e) q ≠ none := by
    intro q hq
    by_cases hqh : q = hole
    · subst hqh
      simp
    · rwa [update_of_ne hqh]
  refine ⟨h.home_lt, h.next_lt, LinearProbing.next_lt h.next_lt, ?_, ?_, ?_, ?_⟩
  · have hne := h.apart
    have hhole := h.hole_lt
    unfold next
    split_ifs <;> omega
  · rw [update_of_ne h.apart, hslot]
    simp
  · intro p hp x hx q hq hb
    by_cases hph : p = hole
    · subst hph
      rw [update_self] at hx
      cases hx
      refine hkept q (h.reach j h.next_lt e hslot q hq ?_)
      unfold Before Crossed at *
      split_ifs at hcross <;> omega
    · rw [update_of_ne hph] at hx
      exact hkept q (h.reach p hp x hx q hq hb)
  · intro p hp hne hb
    rcases before_next hp hb with rfl | hb
    · exact absurd rfl hne
    · exact absurd hb (not_before_self _ _)

theorem Shifting.clear (hslot : t j = none) :
    ∀ p < n, ∀ e, update t hole none p = some e → ∀ q < n, Before (home (key e)) p q →
      update t hole none q ≠ none := by
  intro p hp e he q hq hb
  have hph : p ≠ hole := by
    rintro rfl
    simp at he
  rw [update_of_ne hph] at he
  have hqh : q ≠ hole := by
    rintro rfl
    by_cases hbetween : Before q j p
    · obtain ⟨e', he', hcross⟩ := h.passed p hp hph hbetween
      rw [he] at he'
      cases he'
      apply hcross
      unfold Before Crossed at *
      split_ifs <;> omega
    · have hpj : p ≠ j := by
        rintro rfl
        simp [hslot] at he
      refine h.reach p hp e he j h.next_lt ?_ hslot
      unfold Before at *
      omega
  rw [update_of_ne hqh]
  exact h.reach p hp e he q hq hb

end

structure Shifted (n : ℕ) (key : α → κ) (t : ℕ → Option α) (hole : ℕ) (t' : ℕ → Option α) (hole' : ℕ) : Prop where
  hole_lt : hole' < n
  full : t' hole' ≠ none
  held : ∀ e, (∃ p < n, p ≠ hole' ∧ t' p = some e) ↔ ∃ p < n, p ≠ hole ∧ t p = some e
  distinct : (∀ p < n, p ≠ hole → ∀ q < n, q ≠ hole → ∀ e e', t p = some e → t q = some e' → key e = key e' → p = q) →
    ∀ p < n, p ≠ hole' → ∀ q < n, q ≠ hole' → ∀ e e', t' p = some e → t' q = some e' → key e = key e' → p = q
  load : load n t' = load n t

theorem Shifting.moved (h : Shifting n key home t hole j) (hslot : t j = some e) :
    Shifted n key t hole (update t hole (some e)) j := by
  have hold : ∀ p, p ≠ j → ∀ x, update t hole (some e) p = some x →
      p = hole ∧ x = e ∨ p ≠ hole ∧ t p = some x := by
    intro p hp x hx
    by_cases hph : p = hole
    · subst hph
      rw [update_self] at hx
      cases hx
      exact .inl ⟨rfl, rfl⟩
    · rw [update_of_ne hph] at hx
      exact .inr ⟨hph, hx⟩
  refine ⟨h.next_lt, ?_, ?_, ?_, ?_⟩
  · rw [update_of_ne h.apart, hslot]
    simp
  · intro x
    constructor
    · rintro ⟨p, hp, hpj, hx⟩
      rcases hold p hpj x hx with ⟨-, rfl⟩ | ⟨hph, hx⟩
      · exact ⟨j, h.next_lt, h.apart, hslot⟩
      · exact ⟨p, hp, hph, hx⟩
    · rintro ⟨p, hp, hph, hx⟩
      by_cases hpj : p = j
      · subst hpj
        rw [hslot] at hx
        cases hx
        exact ⟨hole, h.hole_lt, h.apart.symm, update_self _ _ _⟩
      · exact ⟨p, hp, hpj, by rwa [update_of_ne hph]⟩
  · intro hd p hp hpj q hq hqj x x' hx hx' hkey
    rcases hold p hpj x hx with ⟨hph, rfl⟩ | ⟨hph, ht⟩ <;> rcases hold q hqj x' hx' with ⟨hqh, rfl⟩ | ⟨hqh, ht'⟩
    · rw [hph, hqh]
    · exact absurd (hd j h.next_lt h.apart q hq hqh x x' hslot ht' hkey).symm hqj
    · exact absurd (hd p hp hph j h.next_lt h.apart x x' ht hslot hkey) hpj
    · exact hd p hp hph q hq hqh x x' ht ht' hkey
  · have hload := @load_update _ _ t hole h.hole_lt (some e)
    have hfull := Option.isSome_iff_ne_none.mpr h.full
    rw [hfull] at hload
    simpa using hload

theorem Shifted.trans {t' t'' : ℕ → Option α} {hole' hole'' : ℕ} (h : Shifted n key t hole t' hole')
    (h' : Shifted n key t' hole' t'' hole'') : Shifted n key t hole t'' hole'' :=
  ⟨h'.hole_lt, h'.full, fun e => (h'.held e).trans (h.held e), fun hd => h'.distinct (h.distinct hd),
    h'.load.trans h.load⟩

theorem Shifting.run {g fuel : ℕ} (h : Shifting n key home t hole j) (hg : g < n) (hgap : t g = none)
    (hfuel : steps n j g < fuel) : ∃ t' hole' j', shift n key home fuel t hole j = some (t', hole') ∧
      Shifting n key home t' hole' j' ∧ t' j' = none ∧ Shifted n key t hole t' hole' := by
  induction fuel generalizing t hole j with
  | zero => omega
  | succ fuel ih =>
    rw [shift]
    cases hslot : t j with
    | none => exact ⟨t, hole, j, rfl, h, hslot, h.hole_lt, h.full, fun _ => Iff.rfl, id, rfl⟩
    | some e =>
      have hne : j ≠ g := by
        rintro rfl
        simp [hslot] at hgap
      have hstep := steps_next h.next_lt hg hne
      by_cases hcross : Crossed hole j (home (key e))
      · have hgap' : update t hole (some e) g = none := by
          rw [update_of_ne, hgap]
          rintro rfl
          exact h.full hgap
        obtain ⟨t', hole', j', heq, hs, hend, hkept⟩ := ih (h.move hslot hcross) hgap' (by omega)
        exact ⟨t', hole', j', by simpa [hcross] using heq, hs, hend, (h.moved hslot).trans hkept⟩
      · obtain ⟨t', hole', j', heq, hs, hend, hkept⟩ := ih (h.skip ⟨g, hg, hgap⟩ hslot hcross) hgap (by omega)
        exact ⟨t', hole', j', by simpa [hcross] using heq, hs, hend, hkept⟩

theorem Probed.remove (ht : Probed n key home t) {p : ℕ} (hp : p < n) (hslot : t p = some e) :
    ∃ t' hole', shift n key home n t p (next n p) = some (t', hole') ∧ hole' < n ∧
      Probed n key home (update t' hole' none) ∧
      (∀ x, Held n (update t' hole' none) x ↔ Held n t x ∧ key x ≠ key e) ∧
      load n (update t' hole' none) + 1 = load n t := by
  obtain ⟨g, hg, hgap⟩ := exists_gap ht.room
  have hgp : g ≠ p := by
    rintro rfl
    simp [hslot] at hgap
  have hstart : Shifting n key home t p (next n p) := by
    refine ⟨ht.home_lt, hp, next_lt hp, ?_, by simp [hslot], ht.reach, ?_⟩
    · unfold next
      split_ifs <;> omega
    · intro q hq hne hb
      rcases before_next hq hb with rfl | hb
      · exact absurd rfl hne
      · exact absurd hb (not_before_self _ _)
  obtain ⟨t', hole', j', heq, hs, hend, hkept⟩ := hstart.run hg hgap (steps_lt (next_lt hp) hg)
  have hload := @load_update _ _ t' hole' hkept.hole_lt none
  rw [Option.isSome_iff_ne_none.mpr hkept.full, hkept.load] at hload
  simp only [Option.isSome_none, Bool.toNat_true, Bool.toNat_false] at hload
  have hheld : ∀ x, Held n (update t' hole' none) x ↔ ∃ q < n, q ≠ hole' ∧ t' q = some x := by
    intro x
    constructor
    · rintro ⟨q, hq, hx⟩
      have hne : q ≠ hole' := by
        rintro rfl
        simp at hx
      exact ⟨q, hq, hne, by rwa [update_of_ne hne] at hx⟩
    · rintro ⟨q, hq, hne, hx⟩
      exact ⟨q, hq, by rwa [update_of_ne hne]⟩
  refine ⟨t', hole', heq, hkept.hole_lt, ⟨ht.home_lt, hs.clear hend, ?_, ?_⟩, ?_, by omega⟩
  · intro q hq r hr x x' hx hx' hkey
    have hqh : q ≠ hole' := by
      rintro rfl
      simp at hx
    have hrh : r ≠ hole' := by
      rintro rfl
      simp at hx'
    rw [update_of_ne hqh] at hx
    rw [update_of_ne hrh] at hx'
    exact hkept.distinct (fun p' hp' _ q' hq' _ => ht.distinct p' hp' q' hq') q hq hqh r hr hrh x x' hx hx' hkey
  · have hroom := ht.room
    omega
  · intro x
    rw [hheld, hkept.held]
    constructor
    · rintro ⟨q, hq, hne, hx⟩
      exact ⟨⟨q, hq, hx⟩, fun hkey => hne (ht.distinct q hq p hp x e hx hslot hkey)⟩
    · rintro ⟨⟨q, hq, hx⟩, hne⟩
      refine ⟨q, hq, ?_, hx⟩
      rintro rfl
      rw [hslot] at hx
      cases hx
      exact hne rfl

end AvilaNode.LinearProbing
