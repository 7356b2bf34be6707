import Mathlib.Data.List.Basic

/-! Readers that consume a byte string from its front, against the writers they invert. -/

namespace AvilaNode

abbrev ByteReader (ε : Type) := StateT (List UInt8) (Except ε)

namespace ByteReader

variable {ε α β : Type}

variable {bytes : List UInt8}

variable {read : ByteReader ε α} {write : α → List UInt8} {next : α → ByteReader ε β} {valid : α → Prop} {a : α}
  {values : List α}

theorem bind_eq_ok {r : β × List UInt8} :
    (read >>= next) bytes = .ok r ↔ ∃ a rest, read bytes = .ok (a, rest) ∧ next a rest = .ok r := by
  change (read bytes >>= fun p => next p.1 p.2) = _ ↔ _
  cases read bytes with
  | error e => simp [bind, Except.bind]
  | ok p =>
    obtain ⟨a, rest⟩ := p
    simp [bind, Except.bind]

theorem bind_ok {rest : List UInt8} (h : read bytes = .ok (a, rest)) : (read >>= next) bytes = next a rest := by
  change (read bytes >>= fun p => next p.1 p.2) = _
  rw [h]
  rfl

@[simp] theorem pure_apply (a : α) (bytes : List UInt8) : (pure a : ByteReader ε α) bytes = .ok (a, bytes) := rfl

/-- `read` accepts what `write` writes for the valid values, and nothing else. -/
structure Inverts (read : ByteReader ε α) (write : α → List UInt8) (valid : α → Prop) : Prop where
  read_write : ∀ {a} rest, valid a → read (write a ++ rest) = .ok (a, rest)
  write_read : ∀ {bytes a rest}, read bytes = .ok (a, rest) → valid a ∧ write a ++ rest = bytes

theorem Inverts.mono {valid valid' : α → Prop} (h : Inverts read write valid) (hv : ∀ a, valid a ↔ valid' a) :
    Inverts read write valid' where
  read_write rest ha := h.read_write rest ((hv _).mpr ha)
  write_read he := ⟨(hv _).mp (h.write_read he).1, (h.write_read he).2⟩

theorem Inverts.map {valid' : β → Prop} {f : α → β} {g : β → α} (h : Inverts read write valid)
    (hg : ∀ b, valid' b → valid (g b) ∧ f (g b) = b) (hf : ∀ a, valid a → valid' (f a) ∧ g (f a) = a) :
    Inverts (read >>= fun a => pure (f a)) (fun b => write (g b)) valid' where
  read_write rest hb := by
    rw [bind_ok (h.read_write rest (hg _ hb).1), (hg _ hb).2]
    rfl
  write_read := by
    intro bytes b rest he
    obtain ⟨a, middle, ha, he⟩ := bind_eq_ok.mp he
    cases he
    obtain ⟨hv, hw⟩ := h.write_read ha
    exact ⟨(hf a hv).1, by rw [(hf a hv).2, hw]⟩

def repeated (read : ByteReader ε α) : ℕ → ByteReader ε (List α)
  | 0 => pure []
  | count + 1 => do
    let a ← read
    let values ← repeated read count
    pure (a :: values)

theorem repeated_length {count : ℕ} {bytes rest : List UInt8} (h : repeated read count bytes = .ok (values, rest)) :
    values.length = count := by
  induction count generalizing bytes values with
  | zero =>
    cases h
    rfl
  | succ count ih =>
    obtain ⟨a, _, -, h⟩ := bind_eq_ok.mp h
    obtain ⟨tail, _, ht, h⟩ := bind_eq_ok.mp h
    cases h
    rw [List.length_cons, ih ht]

theorem Inverts.repeated (h : Inverts read write valid) (count : ℕ) :
    Inverts (repeated read count) (fun values => values.flatMap write)
      (fun values => values.length = count ∧ ∀ a ∈ values, valid a) where
  read_write := by
    induction count with
    | zero =>
      rintro values rest ⟨hl, -⟩
      rw [List.length_eq_zero_iff.mp hl]
      rfl
    | succ count ih =>
      rintro values rest ⟨hl, hv⟩
      cases values with
      | nil => simp at hl
      | cons a values =>
        rw [List.forall_mem_cons] at hv
        rw [List.flatMap_cons, List.append_assoc, ByteReader.repeated, bind_ok (h.read_write _ hv.1),
          bind_ok (ih rest ⟨by simpa using hl, hv.2⟩)]
        rfl
  write_read := by
    induction count with
    | zero =>
      intro bytes values rest he
      simp only [ByteReader.repeated, pure_apply, Except.ok.injEq, Prod.mk.injEq] at he
      obtain ⟨rfl, rfl⟩ := he
      simp
    | succ count ih =>
      intro bytes values rest he
      obtain ⟨a, middle, ha, he⟩ := bind_eq_ok.mp he
      obtain ⟨tail, last, ht, he⟩ := bind_eq_ok.mp he
      cases he
      obtain ⟨hva, hwa⟩ := h.write_read ha
      obtain ⟨⟨hl, hv⟩, hw⟩ := ih ht
      refine ⟨⟨by simp [hl], by simpa using ⟨hva, hv⟩⟩, ?_⟩
      rw [List.flatMap_cons, List.append_assoc, hw, hwa]

theorem Inverts.counted {read_count : ByteReader ε ℕ} {write_count : ℕ → List UInt8} {representable : ℕ → Prop}
    (hc : Inverts read_count write_count representable) (h : Inverts read write valid) :
    Inverts (read_count >>= ByteReader.repeated read)
      (fun values => write_count values.length ++ values.flatMap write)
      (fun values => representable values.length ∧ ∀ a ∈ values, valid a) where
  read_write := by
    rintro values rest ⟨hl, hv⟩
    rw [List.append_assoc, bind_ok (hc.read_write _ hl)]
    exact (h.repeated values.length).read_write rest ⟨rfl, hv⟩
  write_read := by
    intro bytes values rest he
    obtain ⟨count, middle, hm, he⟩ := bind_eq_ok.mp he
    obtain ⟨hr, hw⟩ := hc.write_read hm
    obtain ⟨⟨rfl, hv⟩, hwv⟩ := (h.repeated count).write_read he
    exact ⟨⟨hr, hv⟩, by rw [List.append_assoc, hwv, hw]⟩

def Reads (read : ByteReader ε α) (bytes : List UInt8) (a : α) : Prop := ∀ rest, read (bytes ++ rest) = .ok (a, rest)

theorem Inverts.reads (h : Inverts read write valid) (ha : valid a) :
    Reads read (write a) a := fun rest => h.read_write rest ha

theorem Reads.pure (a : α) : Reads (Pure.pure a : ByteReader ε α) [] a := fun _ => rfl

variable {front back : List UInt8}

theorem Reads.bind {b : β} (h : Reads read front a) (hn : Reads (next a) back b) :
    Reads (read >>= next) (front ++ back) b := by
  intro rest
  rw [List.append_assoc, bind_ok (h _)]
  exact hn rest

theorem Reads.map (h : Reads read bytes a) (f : α → β) :
    Reads (read >>= fun a => Pure.pure (f a)) bytes (f a) := by
  intro rest
  rw [bind_ok (h rest)]
  rfl

theorem Reads.map_eq (h : Reads read bytes a) {f : α → β} {b : β} (hf : f a = b) :
    Reads (read >>= fun a => Pure.pure (f a)) bytes b := hf ▸ h.map f

theorem Reads.repeated (h : ∀ a ∈ values, Reads read (write a) a) :
      Reads (repeated read values.length) (values.flatMap write) values := by
  induction values with
  | nil => exact Reads.pure []
  | cons a values ih =>
    rw [List.forall_mem_cons] at h
    exact h.1.bind ((ih h.2).map (a :: ·))

def Fails (read : ByteReader ε α) (bytes : List UInt8) : Prop := ∀ rest, ∃ e, read (bytes ++ rest) = .error e

theorem Fails.bind (h : Fails read bytes) (next : α → ByteReader ε β) (back : List UInt8) :
    Fails (read >>= next) (bytes ++ back) := by
  intro rest
  obtain ⟨e, he⟩ := h (back ++ rest)
  refine ⟨e, ?_⟩
  rw [List.append_assoc]
  change (read (bytes ++ (back ++ rest)) >>= fun p => next p.1 p.2) = _
  rw [he]
  rfl

theorem Reads.bind_fails (h : Reads read front a) (hn : Fails (next a) back) :
    Fails (read >>= next) (front ++ back) := by
  intro rest
  rw [List.append_assoc, bind_ok (h _)]
  exact hn rest

theorem Fails.repeated (h : ∀ a ∈ values, Reads read (write a) a ∨ Fails read (write a))
    (hbad : ∃ a ∈ values, Fails read (write a)) :
    Fails (repeated read values.length) (values.flatMap write) := by
  induction values with
  | nil => exact absurd hbad (by simp)
  | cons a values ih =>
    rw [List.forall_mem_cons] at h
    rcases h.1 with ha | ha
    · by_cases hrest : ∃ b ∈ values, Fails read (write b)
      · have hfail := (ih h.2 hrest).bind (fun values => Pure.pure (a :: values)) []
        rw [List.append_nil] at hfail
        exact ha.bind_fails hfail
      · obtain ⟨b, hb, hf⟩ := hbad
        rcases List.mem_cons.mp hb with rfl | hb
        · obtain ⟨e, he⟩ := hf []
          rw [ha []] at he
          cases he
        · exact absurd ⟨b, hb, hf⟩ hrest
    · exact ha.bind _ _

theorem Reads.whole (h : Reads read bytes a) : read bytes = .ok (a, []) := by
  have hw := h []
  rwa [List.append_nil] at hw

end ByteReader

end AvilaNode
