import AvilaNode.ByteReader

/-! Readers that run on a window of a longer byte string, and say so when the window is too short. -/

namespace AvilaNode.ByteReader

variable {ε α β : Type}

/-- But for `short`, an answer does not depend on what follows the window. -/
structure Settled (short : ε) (read : ByteReader ε α) : Prop where
  taken : ∀ {bytes a rest}, read bytes = .ok (a, rest) → ∃ front, bytes = front ++ rest ∧ Reads read front a
  fails : ∀ {bytes e}, read bytes = .error e → e ≠ short → ∀ tail, read (bytes ++ tail) = .error e

variable {read : ByteReader ε α} {next : α → ByteReader ε β}

theorem bind_eq_error {bytes : List UInt8} {e : ε} :
    (read >>= next) bytes = .error e ↔
      read bytes = .error e ∨ ∃ a rest, read bytes = .ok (a, rest) ∧ next a rest = .error e := by
  change (read bytes >>= fun p => next p.1 p.2) = _ ↔ _
  cases read bytes with
  | error e' => simp [bind, Except.bind]
  | ok p =>
    obtain ⟨a, rest⟩ := p
    simp [bind, Except.bind]

namespace Settled

variable {short : ε}

theorem pure (a : α) : Settled short (Pure.pure a : ByteReader ε α) := by
  constructor
  · intro bytes b rest h
    cases h
    exact ⟨[], rfl, Reads.pure a⟩
  · intro bytes e h
    cases h

theorem error (e : ε) : Settled short (fun _ => .error e : ByteReader ε α) := by
  constructor
  · intro bytes b rest h
    cases h
  · intro bytes e' h _ tail
    exact h

theorem bind (h : Settled short read) (hn : ∀ a, Settled short (next a)) : Settled short (read >>= next) := by
  constructor
  · intro bytes b rest hb
    obtain ⟨a, middle, ha, hnext⟩ := bind_eq_ok.mp hb
    obtain ⟨front, rfl, hfront⟩ := h.taken ha
    obtain ⟨back, rfl, hback⟩ := (hn a).taken hnext
    exact ⟨front ++ back, (List.append_assoc _ _ _).symm, hfront.bind hback⟩
  · intro bytes e he hne tail
    rcases bind_eq_error.mp he with hread | ⟨a, middle, ha, hnext⟩
    · exact bind_eq_error.mpr (Or.inl (h.fails hread hne tail))
    · obtain ⟨front, rfl, hfront⟩ := h.taken ha
      refine bind_eq_error.mpr (Or.inr ⟨a, middle ++ tail, ?_, (hn a).fails hnext hne tail⟩)
      rw [List.append_assoc]
      exact hfront _

theorem ite {p : Prop} [Decidable p] {read other : ByteReader ε α} (h : Settled short read)
    (ho : Settled short other) : Settled short (if p then read else other) := by
  split_ifs
  · exact h
  · exact ho

variable {a : α}

theorem window (h : Settled short read) {bytes window rest : List UInt8} (hok : read bytes = .ok (a, rest))
    (hw : window <+: bytes) (hlen : bytes.length - rest.length ≤ window.length) :
    read window = .ok (a, window.drop (bytes.length - rest.length)) := by
  obtain ⟨front, rfl, hfront⟩ := h.taken hok
  rw [List.length_append, Nat.add_sub_cancel] at hlen ⊢
  obtain ⟨tail, rfl⟩ := List.prefix_of_prefix_length_le (List.prefix_append front rest) hw hlen
  rw [hfront, List.drop_left]

theorem whole (h : Settled short read) {window left tail : List UInt8} (hok : read window = .ok (a, left)) :
    read (window ++ tail) = .ok (a, left ++ tail) := by
  obtain ⟨front, rfl, hfront⟩ := h.taken hok
  rw [List.append_assoc]
  exact hfront _

theorem length_le (h : Settled short read) {bytes rest : List UInt8} (hok : read bytes = .ok (a, rest)) :
    rest.length ≤ bytes.length := by
  obtain ⟨front, rfl, -⟩ := h.taken hok
  rw [List.length_append]
  exact Nat.le_add_left _ _

end Settled

end AvilaNode.ByteReader
