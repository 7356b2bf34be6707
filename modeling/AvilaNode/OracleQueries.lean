import AvilaNode.OracleTriples

/-! What a program asks its oracle. -/

namespace AvilaNode.OraclePrograms

variable {Q : Type} {R : Q → Type} {S T E ι σ α β : Type} {admits : (q : Q) → R q → Prop} {good : Q → Prop}

namespace Prog

def Asks (admits : (q : Q) → R q → Prop) (good : Q → Prop) : Prog R α → Prop
  | done _ => True
  | ask query next => good query ∧ ∀ answer, admits query answer → Asks admits good (next answer)

theorem asks_bind {p : Prog R α} {f : α → Prog R β} (hp : p.Asks admits good)
    (hf : ∀ a, p.Outcome admits a → (f a).Asks admits good) : (p.bind f).Asks admits good := by
  induction p with
  | done a => exact hf a (.done a)
  | ask query next ih => exact ⟨hp.1, fun answer h => ih answer (hp.2 answer h) fun a ha => hf a (.ask h ha)⟩

def noting (answer : (q : Q) → R q) (entry : Q → ι) (query : Q) (log : List ι) : R query × List ι :=
  (answer query, log ++ [entry query])

variable {answer : (q : Q) → R q} {entry : Q → ι}

theorem run_state_of_answers {stateful : (q : Q) → σ → R q × σ} (h : ∀ query t, (stateful query t).1 = answer query)
    (p : Prog R α) (t : σ) : (p.run_state stateful t).1 = p.run answer :=
  (@run_state_eq Q R σ α answer stateful (fun _ => False) (fun _ _ hf => hf) (fun query t => .inl (h query t))
    p t).resolve_left id

theorem noted_of_asks {p : Prog R α} (h : p.Asks (fun query a => a = answer query) good) (log : List ι) :
    ∀ c ∈ (p.run_state (noting answer entry) log).2, c ∈ log ∨ ∃ query, good query ∧ c = entry query := by
  induction p generalizing log with
  | done a => exact fun c hc => .inl hc
  | ask query next ih =>
    intro c hc
    rcases ih _ (h.2 _ rfl) _ c hc with hc | hc
    · rcases List.mem_append.mp hc with hc | hc
      · exact .inl hc
      · exact .inr ⟨query, h.1, List.mem_singleton.mp hc⟩
    · exact .inr hc

end Prog

namespace Exec

structure Heeds (admits : (q : Q) → R q → Prop) (good : Q → Prop) (I : S → Prop) (f : Exec R S E α) : Prop where
  asks : ∀ s, I s → (f s).Asks admits good
  keeps : Triple admits (fun _ => True) I f fun _ => I

variable {I : S → Prop} {J : T → Prop} {f : Exec R S E α}

namespace Heeds

theorem bind {k : α → Exec R S E β} (hf : Heeds admits good I f) (hk : ∀ a, Heeds admits good I (k a)) :
    Heeds admits good I (f >>= k) where
  asks s hs := by
    refine Prog.asks_bind (hf.asks s hs) fun r hr => ?_
    cases r with
    | error e => trivial
    | ok p => exact (hk p.1).asks p.2 (hf.keeps.ends s p.1 p.2 hs hr)
  keeps := hf.keeps.bind fun a => (hk a).keeps

theorem pure (a : α) : Heeds admits good I (Pure.pure a : Exec R S E α) where
  asks _ _ := trivial
  keeps := .pure a fun _ hs => hs

theorem throw (e : E) : Heeds admits good I (throw e : Exec R S E α) where
  asks _ _ := trivial
  keeps := .throw fun _ _ => trivial

theorem get {k : S → Exec R S E β} (hk : ∀ s, I s → Heeds admits good I (k s)) :
    Heeds admits good I (Exec.get >>= k) where
  asks s hs := (hk s hs).asks s hs
  keeps := by
    refine Triple.bind Triple.get fun s => Triple.assume ?_
    rintro s ⟨rfl, hs⟩
    refine Triple.weaken (hk s hs).keeps ?_ fun _ _ h => h
    rintro _ rfl
    exact hs

theorem modify {g : S → S} (h : ∀ s, I s → I (g s)) : Heeds admits good I (modify g : Exec R S E Unit) where
  asks _ _ := trivial
  keeps := .modify h

theorem ask {query : Q} (h : good query) : Heeds admits good I (ask query : Exec R S E (R query)) where
  asks _ _ := ⟨h, fun _ _ => trivial⟩
  keeps := Triple.weaken (Triple.ask query) (fun _ hs => hs) fun _ _ h => h.2

theorem lift (x : Except E α) : Heeds admits good I (lift x : Exec R S E α) := by
  cases x with
  | ok a => exact pure a
  | error e => exact throw e

theorem ite {p : Prop} [Decidable p] {g : Exec R S E α} (hf : p → Heeds admits good I f)
    (hg : ¬p → Heeds admits good I g) : Heeds admits good I (if p then f else g) := by
  split
  · next h => exact hf h
  · next h => exact hg h

theorem within {s : S} (hf : Heeds admits good I f) (hs : I s) : Heeds admits good J (within s f : Exec R T E S) where
  asks t _ := by
    refine Prog.asks_bind (hf.asks s hs) fun r _ => ?_
    cases r with
    | error e => trivial
    | ok p => trivial
  keeps := Triple.within fun t ht =>
    { ends := fun _ _ _ _ _ => ht
      stops := fun _ _ _ _ => trivial }

end Heeds

end Exec

end AvilaNode.OraclePrograms
