import Mathlib.Data.List.Basic
import Mathlib.Data.Set.Function

/-! Binary hash trees whose odd levels repeat their last node. -/

namespace AvilaNode.MerkleTree

variable {α : Type}

def pairs : List α → List (α × α)
  | [] => []
  | [last] => [(last, last)]
  | left :: right :: nodes => (left, right) :: pairs nodes

@[simp] theorem pairs_nil : pairs ([] : List α) = [] := rfl

@[simp] theorem pairs_single (a : α) : pairs [a] = [(a, a)] := rfl

@[simp] theorem pairs_cons (a b : α) (nodes : List α) : pairs (a :: b :: nodes) = (a, b) :: pairs nodes := rfl

theorem length_pairs : ∀ nodes : List α, (pairs nodes).length = (nodes.length + 1) / 2
  | [] => by simp
  | [_] => by simp
  | _ :: _ :: nodes => by
    simp only [pairs_cons, List.length_cons, length_pairs nodes]
    omega

def Distinct : List α → Prop
  | left :: right :: nodes => left ≠ right ∧ Distinct nodes
  | _ => True

theorem pairs_inj : ∀ {a b : List α}, Distinct a → Distinct b → pairs a = pairs b → a = b
  | [], [], _, _, _ => rfl
  | [], [_], _, _, h => by simp at h
  | [], _ :: _ :: _, _, _, h => by simp at h
  | [_], [], _, _, h => by simp at h
  | _ :: _ :: _, [], _, _, h => by simp at h
  | [_], [_], _, _, h => by simpa using h
  | [x], y :: z :: b, _, hb, h => by
    simp only [pairs_single, pairs_cons, List.cons.injEq, Prod.mk.injEq] at h
    exact absurd (h.1.1.symm.trans h.1.2) hb.1
  | y :: z :: a, [x], ha, _, h => by
    simp only [pairs_single, pairs_cons, List.cons.injEq, Prod.mk.injEq] at h
    exact absurd (h.1.1.trans h.1.2.symm) ha.1
  | x :: y :: a, z :: w :: b, ha, hb, h => by
    simp only [pairs_cons, List.cons.injEq, Prod.mk.injEq] at h
    obtain ⟨⟨rfl, rfl⟩, h⟩ := h
    rw [pairs_inj ha.2 hb.2 h]

theorem pairs_inj_length : ∀ {a b : List α}, a.length = b.length → pairs a = pairs b → a = b
  | [], [], _, _ => rfl
  | [], _ :: _, hl, _ => by simp at hl
  | _ :: _, [], hl, _ => by simp at hl
  | [_], [_], _, h => by simpa using h
  | [_], _ :: _ :: _, hl, _ => by simp at hl
  | _ :: _ :: _, [_], hl, _ => by simp at hl
  | x :: y :: a, z :: w :: b, hl, h => by
    simp only [pairs_cons, List.cons.injEq, Prod.mk.injEq] at h
    obtain ⟨⟨rfl, rfl⟩, h⟩ := h
    rw [pairs_inj_length (by simpa using hl) h]

theorem map_inj {β γ : Type} {f : β → γ} {s : Set β} (hf : Set.InjOn f s) {a b : List β} (ha : ∀ x ∈ a, x ∈ s)
    (hb : ∀ x ∈ b, x ∈ s) (h : a.map f = b.map f) : a = b := by
  induction a generalizing b with
  | nil => simpa [eq_comm] using h
  | cons x a ih =>
    cases b with
    | nil => simp at h
    | cons y b =>
      simp only [List.map_cons, List.cons.injEq, List.forall_mem_cons] at h ha hb
      rw [hf ha.1 hb.1 h.1, ih ha.2 hb.2 h.2]

variable {hash : α × α → α} {known : Set (α × α)}

def Above (hash : α × α → α) (known : Set (α × α)) (level next : List α) : Prop :=
  1 < level.length ∧ Distinct level ∧ (∀ p ∈ pairs level, p ∈ known) ∧ next = (pairs level).map hash

theorem Above.inj {a b next : List α} (hh : Set.InjOn hash known) (ha : Above hash known a next)
    (hb : Above hash known b next) : a = b := by
  obtain ⟨-, hda, hka, rfl⟩ := ha
  obtain ⟨-, hdb, hkb, he⟩ := hb
  apply pairs_inj hda hdb
  exact map_inj hh hka hkb he

theorem Above.hashed {level next : List α} (h : Above hash known level next) :
    ∃ p ∈ known, hash p ∈ next := by
  obtain ⟨hl, -, hk, rfl⟩ := h
  match level, hl with
  | left :: right :: nodes, _ =>
    exact ⟨(left, right), hk _ (by simp), by simp⟩

/-- A tree of known pairs has its leaves below its root and nothing else: of two, the one that is
lower has the other's leaves among its hashes. -/
theorem leaves_eq {a b root : List α} (hh : Set.InjOn hash known)
    (hleaf : ∀ leaf ∈ a ++ b, ∀ p ∈ known, hash p ≠ leaf)
    (ha : Relation.ReflTransGen (Above hash known) a root)
    (hb : Relation.ReflTransGen (Above hash known) b root) : a = b := by
  have hu : Relator.RightUnique (Function.swap (Above hash known)) := fun _ _ _ h h' => h.inj hh h'
  rcases Relation.ReflTransGen.total_of_right_unique hu ha.swap hb.swap with h | h
  · rcases h.swap.cases_tail with he | ⟨level, -, he⟩
    · exact he
    · obtain ⟨p, hp, hm⟩ := he.hashed
      exact absurd rfl (hleaf _ (by simp [hm]) p hp)
  · rcases h.swap.cases_tail with he | ⟨level, -, he⟩
    · exact he.symm
    · obtain ⟨p, hp, hm⟩ := he.hashed
      exact absurd rfl (hleaf _ (by simp [hm]) p hp)

end AvilaNode.MerkleTree
