import Mathlib.Algebra.Order.Ring.Nat

/-! Paths of a relation that loses a node, or gains one. -/

namespace AvilaNode.NodeEdits

open Relation

variable {α : Type} {R S : α → α → Prop} {x : α}

theorem lt_of_transGen {rank : α → ℕ} (h : ∀ a b, R a b → rank a < rank b) {a b : α} (hp : TransGen R a b) :
    rank a < rank b := by
  induction hp with
  | single hs => exact h _ _ hs
  | tail _ hs ih => exact ih.trans (h _ _ hs)

def Without (R : α → α → Prop) (x : α) (a b : α) : Prop := R a b ∧ a ≠ x ∧ b ≠ x

def Bypassed (R : α → α → Prop) (x : α) : Prop :=
  ∀ a d, TransGen R a x → TransGen R x d → TransGen (Without R x) a d

theorem Bypassed.of_sink (h : ∀ b, ¬ R x b) : Bypassed R x := by
  intro a d _ hd
  obtain ⟨b, hb, -⟩ := TransGen.head'_iff.mp hd
  exact absurd hb (h b)

variable {a d : α}

theorem avoids_or_passes (h : TransGen R a d) (ha : a ≠ x) (hd : d ≠ x) :
    TransGen (Without R x) a d ∨ (TransGen R a x ∧ TransGen R x d) := by
  induction h with
  | single hs => exact Or.inl (.single ⟨hs, ha, hd⟩)
  | @tail b d hp hs ih =>
    by_cases hb : b = x
    · subst hb
      exact Or.inr ⟨hp, .single hs⟩
    · rcases ih hb with h | ⟨hax, hxb⟩
      · exact Or.inl (h.tail ⟨hs, hb, hd⟩)
      · exact Or.inr ⟨hax, hxb.tail hs⟩

theorem transGen_without (hby : Bypassed R x) (ha : a ≠ x) :
    TransGen (Without R x) a d ↔ TransGen R a d ∧ d ≠ x := by
  constructor
  · intro h
    obtain ⟨b, -, -, -, hd⟩ := TransGen.tail'_iff.mp h
    exact ⟨TransGen.mono (fun _ _ hs => hs.1) _ _ h, hd⟩
  · rintro ⟨h, hd⟩
    rcases avoids_or_passes h ha hd with h | ⟨hax, hxd⟩
    · exact h
    · exact hby a d hax hxd

theorem transGen_to (hacyclic : ∀ a, ¬ TransGen R a a) (h : TransGen R a x) :
    ∃ p, ReflTransGen (Without R x) a p ∧ R p x ∧ a ≠ x := by
  have ha : a ≠ x := by
    rintro rfl
    exact hacyclic a h
  obtain ⟨p, hp, hs⟩ := TransGen.tail'_iff.mp h
  refine ⟨p, ?_, hs, ha⟩
  have hpx : p ≠ x := by
    rintro rfl
    exact hacyclic p (.single hs)
  rcases reflTransGen_iff_eq_or_transGen.mp hp with rfl | hp
  · exact .refl
  · rcases avoids_or_passes hp ha hpx with hp | ⟨-, hxp⟩
    · exact hp.to_reflTransGen
    · exact absurd (hxp.tail hs) (hacyclic x)

structure Attached (R S : α → α → Prop) (x : α) (F B : α → Prop) : Prop where
  edge : ∀ a b, S a b ↔ R a b ∨ (b = x ∧ F a) ∨ (a = x ∧ B b)
  source : ∀ b, ¬ R x b
  sink : ∀ a, ¬ R a x
  acyclic : ∀ a, ¬ TransGen S a a

section

variable {F B : α → Prop}

theorem Attached.mono (h : Attached R S x F B) {a b : α} (hp : ReflTransGen R a b) : ReflTransGen S a b :=
  ReflTransGen.mono (fun a b hs => (h.edge a b).mpr (Or.inl hs)) _ _ hp

theorem Attached.below (h : Attached R S x F B) : TransGen S x d ↔ ∃ b, B b ∧ ReflTransGen R b d := by
  constructor
  · intro hp
    induction hp with
    | single hs =>
      rcases (h.edge _ _).mp hs with hs | ⟨rfl, -⟩ | ⟨-, hb⟩
      · exact absurd hs (h.source _)
      · exact absurd (.single hs) (h.acyclic _)
      · exact ⟨_, hb, .refl⟩
    | tail hp hs ih =>
      obtain ⟨b, hb, hpath⟩ := ih
      rcases (h.edge _ _).mp hs with hs | ⟨rfl, -⟩ | ⟨rfl, -⟩
      · exact ⟨b, hb, hpath.tail hs⟩
      · exact absurd (hp.tail hs) (h.acyclic _)
      · exact absurd hp (h.acyclic _)
  · rintro ⟨b, hb, hpath⟩
    exact TransGen.head' ((h.edge x b).mpr (Or.inr (Or.inr ⟨rfl, hb⟩))) (h.mono hpath)

theorem Attached.beside (h : Attached R S x F B) (ha : a ≠ x) : TransGen S a d ↔
    TransGen R a d ∨ ((∃ p, ReflTransGen R a p ∧ F p) ∧ (d = x ∨ ∃ b, B b ∧ ReflTransGen R b d)) := by
  constructor
  · intro hp
    induction hp with
    | single hs =>
      rcases (h.edge _ _).mp hs with hs | ⟨hb, hf⟩ | ⟨heq, -⟩
      · exact Or.inl (.single hs)
      · exact Or.inr ⟨⟨a, .refl, hf⟩, Or.inl hb⟩
      · exact absurd heq ha
    | @tail b c hp hs ih =>
      rcases (h.edge _ _).mp hs with hs' | ⟨rfl, hf⟩ | ⟨rfl, hb⟩
      · rcases ih with ih | ⟨hup, rfl | ⟨d, hd, hpath⟩⟩
        · exact Or.inl (ih.tail hs')
        · exact absurd hs' (h.source c)
        · exact Or.inr ⟨hup, Or.inr ⟨d, hd, hpath.tail hs'⟩⟩
      · rcases ih with ih | ⟨hup, -⟩
        · exact Or.inr ⟨⟨b, ih.to_reflTransGen, hf⟩, Or.inl rfl⟩
        · exact Or.inr ⟨hup, Or.inl rfl⟩
      · rcases ih with ih | ⟨hup, -⟩
        · obtain ⟨e, -, he⟩ := TransGen.tail'_iff.mp ih
          exact absurd he (h.sink e)
        · exact Or.inr ⟨hup, Or.inr ⟨c, hb, .refl⟩⟩
  · rintro (hp | ⟨⟨p, hpath, hf⟩, hd⟩)
    · exact TransGen.mono (fun a b hs => (h.edge a b).mpr (Or.inl hs)) _ _ hp
    · have hx : TransGen S a x := .tail' (h.mono hpath) ((h.edge p x).mpr (Or.inr (Or.inl ⟨rfl, hf⟩)))
      rcases hd with rfl | hb
      · exact hx
      · exact hx.trans (h.below.mpr hb)

end

end AvilaNode.NodeEdits
