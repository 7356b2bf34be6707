import Mathlib.Tactic.Common

/-! Programs that ask an oracle, over a state that the oracle does not see. -/

namespace AvilaNode.OraclePrograms

variable {Q : Type} {R : Q → Type} {S E σ τ α β : Type}

inductive Prog (R : Q → Type) (α : Type) : Type
  | done (result : α)
  | ask (query : Q) (next : R query → Prog R α)

namespace Prog

def bind : Prog R α → (α → Prog R β) → Prog R β
  | done result, f => f result
  | ask query next, f => ask query fun answer => bind (next answer) f

def run (answer : (q : Q) → R q) : Prog R α → α
  | done result => result
  | ask query next => run answer (next (answer query))

def run_state (answer : (q : Q) → σ → R q × σ) : Prog R α → σ → α × σ
  | done result, t => (result, t)
  | ask query next, t => run_state answer (next (answer query t).1) (answer query t).2

variable (answer : (q : Q) → R q)

@[simp] theorem run_done (result : α) : (done result : Prog R α).run answer = result := rfl

@[simp] theorem run_ask (query : Q) (next : R query → Prog R α) :
    (ask query next).run answer = (next (answer query)).run answer := rfl

theorem run_bind (p : Prog R α) (f : α → Prog R β) :
    (p.bind f).run answer = (f (p.run answer)).run answer := by
  induction p with
  | done result => rfl
  | ask query next ih => exact ih (answer query)

theorem run_state_eq {answer : (q : Q) → R q} {stateful : (q : Q) → σ → R q × σ} {P : σ → Prop}
    (hbad : ∀ q t, P t → P (stateful q t).2)
    (hgood : ∀ q t, (stateful q t).1 = answer q ∨ P (stateful q t).2) (p : Prog R α) (t : σ) :
    P (p.run_state stateful t).2 ∨ (p.run_state stateful t).1 = p.run answer := by
  have hstay : ∀ (p : Prog R α) (t : σ), P t → P (p.run_state stateful t).2 := by
    intro p
    induction p with
    | done result => exact fun t h => h
    | ask query next ih => exact fun t h => ih _ _ (hbad query t h)
  induction p generalizing t with
  | done result => exact Or.inr rfl
  | ask query next ih =>
    rcases hgood query t with he | hp
    · rcases ih (stateful query t).1 (stateful query t).2 with h | h
      · exact Or.inl h
      · right
        rw [run_state, h, he, run_ask]
    · exact Or.inl (hstay (next (stateful query t).1) (stateful query t).2 hp)

variable {leads : σ → σ → Prop}

theorem run_state_leads {answer : (q : Q) → σ → R q × σ} (hrefl : ∀ s, leads s s)
    (htrans : ∀ s t u, leads s t → leads t u → leads s u) (h : ∀ q s, leads s (answer q s).2) (p : Prog R α) (s : σ) :
    leads s (p.run_state answer s).2 := by
  induction p generalizing s with
  | done result => exact hrefl s
  | ask query next ih => exact htrans _ _ _ (h query s) (ih _ _)

/-- A second oracle gives the first one's answers, its state stays related to the first one's, for as long as
that one leads to `final`. -/
theorem run_state_lock {first : (q : Q) → σ → R q × σ} {second : (q : Q) → τ → R q × τ} {Rel : σ → τ → Prop}
    {final : σ} (hrefl : ∀ s, leads s s) (htrans : ∀ s t u, leads s t → leads t u → leads s u)
    (hleads : ∀ q s, leads s (first q s).2)
    (hstep : ∀ q s t, Rel s t → leads (first q s).2 final →
      (second q t).1 = (first q s).1 ∧ Rel (first q s).2 (second q t).2) (p : Prog R α) (s : σ) (t : τ)
    (hrel : Rel s t) (hfinal : leads (p.run_state first s).2 final) :
    (p.run_state second t).1 = (p.run_state first s).1 ∧
      Rel (p.run_state first s).2 (p.run_state second t).2 := by
  induction p generalizing s t with
  | done result => exact ⟨rfl, hrel⟩
  | ask query next ih =>
    have hmid := htrans _ _ _ (run_state_leads hrefl htrans hleads (next (first query s).1) (first query s).2) hfinal
    obtain ⟨hanswer, hnext⟩ := hstep query s t hrel hmid
    rw [run_state, run_state, hanswer]
    exact ih _ _ _ hnext hfinal

end Prog

def Exec (R : Q → Type) (S E α : Type) : Type := S → Prog R (Except E (α × S))

namespace Exec

def pure (a : α) : Exec R S E α := fun s => .done (.ok (a, s))

def bind (f : Exec R S E α) (k : α → Exec R S E β) : Exec R S E β := fun s =>
  (f s).bind fun
    | .ok (a, s) => k a s
    | .error e => .done (.error e)

instance : Monad (Exec R S E) where
  pure := Exec.pure
  bind := Exec.bind

def throw (e : E) : Exec R S E α := fun _ => .done (.error e)

def get : Exec R S E S := fun s => .done (.ok (s, s))

def set (s : S) : Exec R S E Unit := fun _ => .done (.ok ((), s))

def modify (f : S → S) : Exec R S E Unit := fun s => .done (.ok ((), f s))

def ask (query : Q) : Exec R S E (R query) := fun s => .ask query fun answer => .done (.ok (answer, s))

def lift : Except E α → Exec R S E α
  | .ok a => pure a
  | .error e => throw e

def within {T : Type} (s : S) (f : Exec R S E α) : Exec R T E S := fun t =>
  (f s).bind fun
    | .ok (_, s) => .done (.ok (s, t))
    | .error e => .done (.error e)

def eval (answer : (q : Q) → R q) (f : Exec R S E α) (s : S) : Except E (α × S) := (f s).run answer

variable {answer : (q : Q) → R q}

@[simp] theorem eval_pure (a : α) (s : S) : eval answer (Pure.pure a : Exec R S E α) s = .ok (a, s) := rfl

@[simp] theorem eval_throw (e : E) (s : S) : eval answer (throw e : Exec R S E α) s = .error e := rfl

theorem eval_bind (f : Exec R S E α) (k : α → Exec R S E β) (s : S) : eval answer (f >>= k) s =
    match eval answer f s with
    | .ok (a, s) => eval answer (k a) s
    | .error e => .error e := by
  change ((f s).bind _).run answer = _
  rw [Prog.run_bind]
  change _ = match (f s).run answer with
    | .ok (a, s) => (k a s).run answer
    | .error e => .error e
  cases (f s).run answer <;> rfl

variable {f g : Exec R S E α} {k : α → Exec R S E β}

theorem eval_bind_eq_ok {s : S} {r : β × S} :
    eval answer (f >>= k) s = .ok r ↔ ∃ p, eval answer f s = .ok p ∧ eval answer (k p.1) p.2 = .ok r := by
  rw [eval_bind]
  cases eval answer f s <;> simp

def Follows (answer : (q : Q) → R q) (f g : Exec R S E α) : Prop :=
  ∀ s r, f.eval answer s = .ok r → g.eval answer s = .ok r

theorem Follows.refl (f : Exec R S E α) : Follows answer f f := fun _ _ h => h

theorem Follows.throw (e : E) (g : Exec R S E α) : Follows answer (throw e) g := nofun

theorem Follows.bind {k l : α → Exec R S E β} (hf : Follows answer f g) (hk : ∀ a, Follows answer (k a) (l a)) :
    Follows answer (f >>= k) (g >>= l) := by
  intro s r h
  rw [eval_bind] at h ⊢
  cases hs : f.eval answer s with
  | error e =>
    rw [hs] at h
    cases h
  | ok p =>
    rw [hs] at h
    rw [hf s p hs]
    exact hk p.1 p.2 r h

theorem Follows.ite {c : Prop} [Decidable c] {f g f' g' : Exec R S E α} (hpos : Follows answer f f')
    (hneg : Follows answer g g') : Follows answer (if c then f else g) (if c then f' else g') := by
  split
  · exact hpos
  · exact hneg

theorem Follows.check {c d : Prop} [Decidable c] [Decidable d] {e e' : E} (hd : d → c) (h : Follows answer f g) :
    Follows answer (if c then Exec.throw e else f) (if d then Exec.throw e' else g) := by
  by_cases hc : c
  · rw [if_pos hc]
    exact Follows.throw e _
  · rw [if_neg hc, if_neg fun h => hc (hd h)]
    exact h

theorem eval_within {T : Type} (s : S) (f : Exec R S E α) (t : T) : eval answer (within s f : Exec R T E S) t =
    match eval answer f s with
    | .ok (_, s) => .ok (s, t)
    | .error e => .error e := by
  change ((f s).bind _).run answer = _
  rw [Prog.run_bind]
  change _ = match (f s).run answer with
    | .ok (_, s) => Except.ok (s, t)
    | .error e => Except.error e
  cases (f s).run answer <;> rfl

theorem Follows.within {T : Type} (s : S) (h : Follows answer f g) :
    Follows answer (within s f : Exec R T E S) (Exec.within s g) := by
  intro t r hr
  rw [eval_within] at hr ⊢
  cases hs : f.eval answer s with
  | error e =>
    rw [hs] at hr
    cases hr
  | ok p =>
    rw [hs] at hr
    rw [h s p hs]
    exact hr

def Quiet (answer : (q : Q) → R q) (f : Exec R S E α) : Prop :=
  ∀ s r, f.eval answer s = .ok r → r.2 = s

theorem Quiet.pure (a : α) : Quiet answer (Pure.pure a : Exec R S E α) := by
  rintro s r h
  cases h
  rfl

theorem Quiet.throw (e : E) : Quiet answer (throw e : Exec R S E α) := nofun

theorem Quiet.get : Quiet answer (get : Exec R S E S) := by
  rintro s r h
  cases h
  rfl

theorem Quiet.ask (query : Q) : Quiet answer (ask query : Exec R S E (R query)) := by
  rintro s r h
  cases h
  rfl

theorem Quiet.lift (x : Except E α) : Quiet answer (lift x : Exec R S E α) := by
  cases x with
  | ok a => exact Quiet.pure a
  | error e => exact Quiet.throw e

theorem Quiet.bind (hf : Quiet answer f) (hk : ∀ a, Quiet answer (k a)) :
    Quiet answer (f >>= k) := by
  intro s r h
  rw [eval_bind] at h
  cases hs : f.eval answer s with
  | error e =>
    rw [hs] at h
    cases h
  | ok p =>
    rw [hs] at h
    exact (hk p.1 p.2 r h).trans (hf s p hs)

theorem Quiet.ite {c : Prop} [Decidable c] (hpos : Quiet answer f) (hneg : Quiet answer g) :
    Quiet answer (if c then f else g) := by
  split
  · exact hpos
  · exact hneg

theorem Quiet.follows {f : Exec R S E Unit} (h : Quiet answer f) : Follows answer f (Pure.pure ()) := by
  intro s r hr
  rw [eval_pure, ← h s r hr]

end Exec

end AvilaNode.OraclePrograms
