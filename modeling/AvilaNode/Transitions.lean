import Mathlib.Data.List.Basic

/-! Runs of a labelled transition relation: invariants and simulations along them. -/

namespace AvilaNode.Transitions

variable {S A V : Type}

inductive Run (step : S → A → S → Prop) : S → List A → S → Prop
  | nil (s : S) : Run step s [] s
  | cons {s t u : S} {a : A} {as : List A} : step s a t → Run step t as u → Run step s (a :: as) u

theorem Run.simulates {step : S → A → S → Prop} {I : S → Prop} (view : S → V) (effect : A → V → V)
    (hI : ∀ s a t, I s → step s a t → I t) (hv : ∀ s a t, I s → step s a t → view t = effect a (view s))
    {s t : S} {as : List A} (h : Run step s as t) (hs : I s) :
    view t = as.foldl (fun v a => effect a v) (view s) := by
  induction h with
  | nil s => rfl
  | cons hstep _ ih => rw [ih (hI _ _ _ hs hstep), hv _ _ _ hs hstep, List.foldl_cons]

end AvilaNode.Transitions

namespace AvilaNode.GuardedLoop

variable {α σ : Type} (step : σ → α → Bool × σ)

def loop : σ → List α → Bool × σ
  | s, [] => (true, s)
  | s, a :: as =>
    match step s a with
    | (true, t) => loop t as
    | (false, t) => (false, t)

def taken : σ → List α → List α
  | _, [] => []
  | s, a :: as =>
    match step s a with
    | (true, t) => a :: taken t as
    | (false, _) => []

theorem taken_isPrefix (s : σ) (as : List α) : taken step s as <+: as := by
  induction as generalizing s with
  | nil => exact List.prefix_rfl
  | cons a as ih =>
    rw [taken]
    split
    · exact List.prefix_cons_inj a |>.mpr (ih _)
    · exact List.nil_prefix

variable {step}

theorem loop_keeps {P : List α → σ → Prop} (hstep : ∀ h s a t, P h s → step s a = (true, t) → P (h ++ [a]) t)
    {h : List α} {s : σ} (hs : P h s) (as : List α) :
    ((loop step s as).1 = true ∧ P (h ++ taken step s as) (loop step s as).2) ∨
      ∃ u a, P (h ++ taken step s as) u ∧ a ∈ as ∧ step u a = (false, (loop step s as).2)
        ∧ (loop step s as).1 = false := by
  induction as generalizing h s with
  | nil => exact Or.inl ⟨rfl, by simpa [taken, loop] using hs⟩
  | cons a as ih =>
    rw [loop, taken]
    cases he : step s a with
    | mk go t =>
      cases go with
      | true =>
        have hcons : h ++ a :: taken step t as = h ++ [a] ++ taken step t as := by simp
        rw [hcons]
        rcases ih (hstep h s a t hs he) with hgo | ⟨u, b, hu, hb, hstop⟩
        · exact Or.inl hgo
        · exact Or.inr ⟨u, b, hu, List.mem_cons_of_mem a hb, hstop⟩
      | false => exact Or.inr ⟨s, a, by simpa using hs, List.mem_cons_self, he, rfl⟩

variable (step) in
theorem loop_le {f : σ → ℕ} {c : ℕ} (hstep : ∀ s a, f (step s a).2 ≤ f s + c) (s : σ) (as : List α) :
    f (loop step s as).2 ≤ f s + c * as.length := by
  induction as generalizing s with
  | nil => exact Nat.le_add_right _ _
  | cons a as ih =>
    have ha := hstep s a
    rw [loop, List.length_cons, Nat.mul_succ]
    cases he : step s a with
    | mk go t =>
      rw [he] at ha
      cases go with
      | true =>
        have := ih t
        dsimp only at ha ⊢
        omega
      | false =>
        dsimp only at ha ⊢
        omega

end AvilaNode.GuardedLoop
