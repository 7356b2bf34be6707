import AvilaNode.OraclePrograms

/-! What a program ends in whatever the oracle answers: outcomes, and triples over them. -/

namespace AvilaNode.OraclePrograms

variable {Q : Type} {R : Q → Type} {S T E σ α β : Type} {admits : (q : Q) → R q → Prop}

namespace Prog

inductive Outcome (admits : (q : Q) → R q → Prop) : Prog R α → α → Prop
  | done (result : α) : Outcome admits (.done result) result
  | ask {query : Q} {next : R query → Prog R α} {result : α} {answer : R query} (h : admits query answer)
      (ho : Outcome admits (next answer) result) : Outcome admits (.ask query next) result

theorem outcome_done {a b : α} : Outcome admits (done a : Prog R α) b ↔ b = a := by
  constructor
  · rintro ⟨⟩
    rfl
  · rintro rfl
    exact .done b

theorem outcome_ask {query : Q} {next : R query → Prog R α} {b : α} :
    Outcome admits (ask query next) b ↔ ∃ answer, admits query answer ∧ Outcome admits (next answer) b := by
  constructor
  · rintro (_ | ⟨h, ho⟩)
    exact ⟨_, h, ho⟩
  · rintro ⟨answer, h, ho⟩
    exact .ask h ho

theorem outcome_bind {p : Prog R α} {f : α → Prog R β} {b : β} :
    Outcome admits (p.bind f) b ↔ ∃ a, Outcome admits p a ∧ Outcome admits (f a) b := by
  induction p with
  | done a => simp [bind, outcome_done]
  | ask query next ih =>
    simp only [bind, outcome_ask, ih]
    constructor
    · rintro ⟨answer, h, a, ha, hb⟩
      exact ⟨a, ⟨answer, h, ha⟩, hb⟩
    · rintro ⟨a, ⟨answer, h, ha⟩, hb⟩
      exact ⟨answer, h, a, ha, hb⟩

theorem Outcome.mono {admits' : (q : Q) → R q → Prop} {p : Prog R α} {a : α} (h : Outcome admits p a)
    (hsub : ∀ q answer, admits q answer → admits' q answer) : Outcome admits' p a := by
  induction h with
  | done a => exact .done a
  | ask h _ ih => exact .ask (hsub _ _ h) ih

end Prog

namespace Exec

/-- From a state in `P`, `f` ends in `C`, or stops with an error in `F`. -/
structure Triple (admits : (q : Q) → R q → Prop) (F : E → Prop) (P : S → Prop) (f : Exec R S E α)
    (C : α → S → Prop) : Prop where
  ends : ∀ s a s', P s → (f s).Outcome admits (.ok (a, s')) → C a s'
  stops : ∀ s e, P s → (f s).Outcome admits (.error e) → F e

variable {F : E → Prop} {P P' : S → Prop} {f : Exec R S E α} {C C' : α → S → Prop}

variable {k : α → Exec R S E β}

theorem outcome_bind {s : S} {r : Except E (β × S)} :
    ((f >>= k) s).Outcome admits r ↔
      (∃ a s', (f s).Outcome admits (.ok (a, s')) ∧ (k a s').Outcome admits r) ∨
        ∃ e, (f s).Outcome admits (.error e) ∧ r = .error e := by
  refine Prog.outcome_bind.trans ?_
  constructor
  · rintro ⟨a | ⟨a, s'⟩, ha, hr⟩
    · exact Or.inr ⟨a, ha, Prog.outcome_done.mp hr⟩
    · exact Or.inl ⟨a, s', ha, hr⟩
  · rintro (⟨a, s', ha, hr⟩ | ⟨e, he, rfl⟩)
    · exact ⟨.ok (a, s'), ha, hr⟩
    · exact ⟨.error e, he, Prog.outcome_done.mpr rfl⟩

namespace Triple

theorem bind {D : β → S → Prop} (hf : Triple admits F P f C) (hk : ∀ a, Triple admits F (C a) (k a) D) :
    Triple admits F P (f >>= k) D where
  ends s b s' hs h := by
    rcases outcome_bind.mp h with ⟨a, t, ha, hb⟩ | ⟨e, -, he⟩
    · exact (hk a).ends t b s' (hf.ends s a t hs ha) hb
    · cases he
  stops s e hs h := by
    rcases outcome_bind.mp h with ⟨a, t, ha, hb⟩ | ⟨e', he, heq⟩
    · exact (hk a).stops t e (hf.ends s a t hs ha) hb
    · cases heq
      exact hf.stops s e hs he

theorem weaken (h : Triple admits F P f C) (hP : ∀ s, P' s → P s) (hC : ∀ a s, C a s → C' a s) :
    Triple admits F P' f C' where
  ends s a s' hs ho := hC a s' (h.ends s a s' (hP s hs) ho)
  stops s e hs ho := h.stops s e (hP s hs) ho

theorem assume (h : ∀ s, P s → Triple admits F (· = s) f C) : Triple admits F P f C where
  ends s a s' hs ho := (h s hs).ends s a s' rfl ho
  stops s e hs ho := (h s hs).stops s e rfl ho

theorem of_fact {p : Prop} (h : p → Triple admits F P f C) : Triple admits F (fun s => p ∧ P s) f C where
  ends s a s' hs ho := (h hs.1).ends s a s' hs.2 ho
  stops s e hs ho := (h hs.1).stops s e hs.2 ho

theorem pure (a : α) (h : ∀ s, P s → C a s) : Triple admits F P (Pure.pure a : Exec R S E α) C where
  ends s b s' hs ho := by
    cases Prog.outcome_done.mp ho
    exact h s hs
  stops s e hs ho := by cases Prog.outcome_done.mp ho

theorem throw {e : E} (h : ∀ s, P s → F e) : Triple admits F P (throw e : Exec R S E α) C where
  ends s b s' hs ho := by cases Prog.outcome_done.mp ho
  stops s e hs ho := by
    cases Prog.outcome_done.mp ho
    exact h s hs

theorem get : Triple admits F P (get : Exec R S E S) fun s s' => s' = s ∧ P s where
  ends s b s' hs ho := by
    cases Prog.outcome_done.mp ho
    exact ⟨rfl, hs⟩
  stops s e hs ho := by cases Prog.outcome_done.mp ho

theorem modify {g : S → S} {D : Unit → S → Prop} (h : ∀ s, P s → D () (g s)) :
    Triple admits F P (modify g : Exec R S E Unit) D where
  ends s b s' hs ho := by
    cases Prog.outcome_done.mp ho
    exact h s hs
  stops s e hs ho := by cases Prog.outcome_done.mp ho

theorem ask (query : Q) :
    Triple admits F P (ask query : Exec R S E (R query)) fun answer s => admits query answer ∧ P s where
  ends s b s' hs ho := by
    obtain ⟨answer, hq, ho⟩ := Prog.outcome_ask.mp ho
    cases Prog.outcome_done.mp ho
    exact ⟨hq, hs⟩
  stops s e hs ho := by
    obtain ⟨answer, hq, ho⟩ := Prog.outcome_ask.mp ho
    cases Prog.outcome_done.mp ho

theorem ite {p : Prop} [Decidable p] {g : Exec R S E α} (hf : p → Triple admits F P f C)
    (hg : ¬p → Triple admits F P g C) : Triple admits F P (if p then f else g) C := by
  split
  · next h => exact hf h
  · next h => exact hg h

theorem within {P : T → Prop} {C : S → T → Prop} {s : S} (h : ∀ t, P t →
    Triple admits F (· = s) f fun _ s' => C s' t) : Triple admits F P (within s f : Exec R T E S) C where
  ends t a t' ht ho := by
    obtain ⟨r, hr, ho⟩ := Prog.outcome_bind.mp ho
    rcases r with e | ⟨b, s'⟩
    · cases Prog.outcome_done.mp ho
    · cases Prog.outcome_done.mp ho
      exact (h _ ht).ends s b _ rfl hr
  stops t e ht ho := by
    obtain ⟨r, hr, ho⟩ := Prog.outcome_bind.mp ho
    rcases r with e' | ⟨b, s'⟩
    · cases Prog.outcome_done.mp ho
      exact (h t ht).stops s _ rfl hr
    · cases Prog.outcome_done.mp ho

end Triple

end Exec

end AvilaNode.OraclePrograms
