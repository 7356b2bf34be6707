import Mathlib.Data.List.Basic
import Mathlib.Data.Nat.Basic

/-! Reads through a window over a file, refilled when it gets short. -/

namespace AvilaNode.SlidingWindow

structure Cursor where
  pos : ℕ
  off : ℕ
  len : ℕ
deriving DecidableEq, Repr

/-- A read of bytes that are not in the window is not modelled: it gives `none`. -/
abbrev Scan := StateT Cursor Option

variable {α β : Type} (file : List UInt8)

def refill (size : ℕ) (c : Cursor) : Cursor := ⟨c.pos, c.pos, min (file.length - c.pos) size⟩

def need (size margin : ℕ) : Scan Unit := fun c =>
  some ((), if c.pos < c.off ∨ c.off + c.len < c.pos + margin then refill file size c else c)

def view (k : ℕ) : Scan (List UInt8) := fun c =>
  if c.off ≤ c.pos ∧ c.pos + k ≤ c.off + c.len then
    some ((file.drop c.pos).take k, { c with pos := c.pos + k })
  else none

def read (size margin k : ℕ) : Scan (List UInt8) := do
  need file size margin
  view file k

def cover (size k : ℕ) : Scan Unit := fun c =>
  some ((), if c.off + c.len < c.pos + k then
      if min (file.length - c.pos) size < k then refill file k c else refill file size c
    else c)

def view_up_to (k : ℕ) : Scan (List UInt8) := fun c =>
  some ((file.drop c.pos).take (min k (c.off + c.len - c.pos)), { c with pos := c.pos + k })

def peek (f : Scan α) : Scan α := fun c => (f c).map fun r => (r.1, { r.2 with pos := c.pos })

/-- At `bytes`, whatever the window holds and whatever follows, `f` goes past them and gives `a`. A read of some
bytes leaves the window's start behind. -/
def Steps (f : Scan α) (bytes : List UInt8) (a : α) : Prop :=
  ∀ (c : Cursor) (rest : List UInt8), c.off + c.len ≤ file.length → c.pos ≤ file.length →
    file.drop c.pos = bytes ++ rest → ∃ c', f c = some (a, c') ∧ c'.pos = c.pos + bytes.length ∧
      c'.off + c'.len ≤ file.length ∧ (bytes ≠ [] ∨ c.off ≤ c.pos → c'.off ≤ c'.pos)

def StepsWithin (f : Scan α) (bytes : List UInt8) (a : α) : Prop :=
  ∀ (c : Cursor) (rest : List UInt8), c.off ≤ c.pos → c.off + c.len ≤ file.length → c.pos ≤ file.length →
    file.drop c.pos = bytes ++ rest → ∃ c', f c = some (a, c') ∧ c'.pos = c.pos + bytes.length ∧
      c'.off + c'.len ≤ file.length ∧ c'.off ≤ c'.pos

variable {file}

variable {bytes : List UInt8}

variable {rest : List UInt8}

theorem length_of_drop {pos : ℕ} (hpos : pos ≤ file.length) (h : file.drop pos = bytes ++ rest) :
    pos + bytes.length ≤ file.length := by
  have hl := congrArg List.length h
  rw [List.length_drop, List.length_append] at hl
  omega

theorem drop_past {pos pos' : ℕ} (h : file.drop pos = bytes ++ rest) (hpos : pos' = pos + bytes.length) :
    file.drop pos' = rest := by
  rw [hpos, ← List.drop_drop, h, List.drop_left]

theorem Steps.pure (a : α) : Steps file (Pure.pure a) [] a :=
  fun c _ hlen _ _ => ⟨c, rfl, rfl, hlen, fun h => h.resolve_left fun hne => hne rfl⟩

variable {f : Scan α} {k : α → Scan β} {front back : List UInt8}

variable {b : β} {a : α}

theorem Steps.bind (h : Steps file f front a) (hk : Steps file (k a) back b) :
    Steps file (f >>= k) (front ++ back) b := by
  intro c rest hlen hin hdrop
  rw [List.append_assoc] at hdrop
  obtain ⟨c', hf, hpos', hlen', hoff'⟩ := h c (back ++ rest) hlen hin hdrop
  obtain ⟨c'', hk', hpos'', hlen'', hoff''⟩ :=
    hk c' rest hlen' (hpos' ▸ length_of_drop hin hdrop) (drop_past hdrop hpos')
  refine ⟨c'', ?_, by rw [hpos'', hpos', List.length_append, Nat.add_assoc], hlen'', ?_⟩
  · change (f c >>= fun p => k p.1 p.2) = _
    rw [hf]
    exact hk'
  · rintro (hne | hoff)
    · cases back with
      | nil => exact hoff'' (Or.inr (hoff' (Or.inl (by simpa using hne))))
      | cons byte back => exact hoff'' (Or.inl (List.cons_ne_nil _ _))
    · exact hoff'' (Or.inr (hoff' (Or.inr hoff)))

theorem Steps.bind_within (h : Steps file f front a) (hne : front ≠ []) (hk : StepsWithin file (k a) back b) :
    Steps file (f >>= k) (front ++ back) b := by
  intro c rest hlen hin hdrop
  rw [List.append_assoc] at hdrop
  obtain ⟨c', hf, hpos', hlen', hoff'⟩ := h c (back ++ rest) hlen hin hdrop
  obtain ⟨c'', hk', hpos'', hlen'', hoff''⟩ :=
    hk c' rest (hoff' (Or.inl hne)) hlen' (hpos' ▸ length_of_drop hin hdrop) (drop_past hdrop hpos')
  refine ⟨c'', ?_, by rw [hpos'', hpos', List.length_append, Nat.add_assoc], hlen'', fun _ => hoff''⟩
  change (f c >>= fun p => k p.1 p.2) = _
  rw [hf]
  exact hk'

theorem Steps.map {g : α → β} (h : Steps file f bytes a) (hg : g a = b) :
    Steps file (f >>= fun a => Pure.pure (g a)) bytes b := by
  have hb := @Steps.bind _ _ _ f (fun a => Pure.pure (g a)) _ _ _ _ h (Steps.pure (g a))
  rwa [List.append_nil, hg] at hb

theorem StepsWithin.map {g : α → Option β} (h : StepsWithin file f bytes a) (hg : g a = some b) :
    StepsWithin file (f >>= fun a => StateT.lift (g a)) bytes b := by
  intro c rest hoff hlen hin hdrop
  obtain ⟨c', hf, hpos', hlen', hoff'⟩ := h c rest hoff hlen hin hdrop
  refine ⟨c', ?_, hpos', hlen', hoff'⟩
  change (f c >>= fun p => (g p.1 >>= fun b => some (b, p.2))) = _
  rw [hf]
  change (g a >>= fun b => some (b, c')) = _
  rw [hg]
  rfl

theorem StepsWithin.bind_pure {g : α → β} (h : StepsWithin file f bytes a) (hg : g a = b) :
    StepsWithin file (f >>= fun a => Pure.pure (g a)) bytes b := by
  intro c rest hoff hlen hin hdrop
  obtain ⟨c', hf, hpos', hlen', hoff'⟩ := h c rest hoff hlen hin hdrop
  refine ⟨c', ?_, hpos', hlen', hoff'⟩
  change (f c >>= fun p => some (g p.1, p.2)) = _
  rw [hf, ← hg]
  rfl

theorem read_steps {size margin : ℕ} (hne : bytes ≠ []) (hm : bytes.length ≤ margin) (hs : bytes.length ≤ size) :
    Steps file (read file size margin bytes.length) bytes bytes := by
  intro c rest hlen hin hdrop
  have hfile := length_of_drop hin hdrop
  have hsome := List.length_pos_iff.mpr hne
  have hview {c : Cursor} (hd : file.drop c.pos = bytes ++ rest) (ho : c.off ≤ c.pos)
      (hl : c.pos + bytes.length ≤ c.off + c.len) :
      view file bytes.length c = some (bytes, { c with pos := c.pos + bytes.length }) := by
    rw [view, if_pos ⟨ho, hl⟩, hd, List.take_left]
  have hread : read file size margin bytes.length c =
      view file bytes.length (if c.pos < c.off ∨ c.off + c.len < c.pos + margin then refill file size c else c) := rfl
  rw [hread]
  split_ifs with hshort
  · refine ⟨_, hview hdrop le_rfl ?_, rfl, ?_, fun _ => ?_⟩
    all_goals
      simp only [refill]
      omega
  · refine ⟨_, hview hdrop (by omega) (by omega), rfl, hlen, fun _ => ?_⟩
    simp only
    omega

theorem cover_steps {size : ℕ} (bytes : List UInt8) :
    StepsWithin file (cover file size bytes.length >>= fun _ => view_up_to file bytes.length) bytes bytes := by
  intro c rest hoff hlen hin hdrop
  have hfile := length_of_drop hin hdrop
  have hview {c : Cursor} (hd : file.drop c.pos = bytes ++ rest) (hl : c.pos + bytes.length ≤ c.off + c.len) :
      view_up_to file bytes.length c = some (bytes, { c with pos := c.pos + bytes.length }) := by
    rw [view_up_to, min_eq_left (by omega), hd, List.take_left]
  have hread : (cover file size bytes.length >>= fun _ => view_up_to file bytes.length) c =
      view_up_to file bytes.length (if c.off + c.len < c.pos + bytes.length then
        if min (file.length - c.pos) size < bytes.length then refill file bytes.length c else refill file size c
      else c) := rfl
  rw [hread]
  split_ifs with hshort hbig
  · refine ⟨_, hview hdrop ?_, rfl, ?_, ?_⟩
    all_goals
      simp only [refill]
      omega
  · refine ⟨_, hview hdrop ?_, rfl, ?_, ?_⟩
    all_goals
      simp only [refill]
      omega
  · refine ⟨_, hview hdrop (by omega), rfl, hlen, ?_⟩
    simp only
    omega

theorem peek_steps (h : Steps file f bytes a) {more : List UInt8} (hk : Steps file (k a) (bytes ++ more) b) :
    Steps file (peek f >>= k) (bytes ++ more) b := by
  intro c rest hlen hin hdrop
  have hfront := hdrop
  rw [List.append_assoc] at hfront
  obtain ⟨c', hf, hpos', hlen', hoff'⟩ := h c (more ++ rest) hlen hin hfront
  obtain ⟨c'', hk', hpos'', hlen'', hoff''⟩ := hk { c' with pos := c.pos } rest hlen' hin hdrop
  refine ⟨c'', ?_, hpos'', hlen'', ?_⟩
  · change ((f c).map (fun r => (r.1, { r.2 with pos := c.pos })) >>= fun p => k p.1 p.2) = _
    rw [hf]
    exact hk'
  · rintro (hne | hoff)
    · exact hoff'' (Or.inl hne)
    · cases bytes with
      | nil =>
        have hstay := hoff' (Or.inr hoff)
        rw [hpos', List.length_nil] at hstay
        exact hoff'' (Or.inr hstay)
      | cons byte bytes => exact hoff'' (Or.inl (List.cons_ne_nil _ _))

end AvilaNode.SlidingWindow
