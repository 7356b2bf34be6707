import AvilaNode.Layers
import AvilaNode.Primitives

/-! The persisted coins, undo rows and tip, and the one transaction that writes them. -/

namespace AvilaNode

open Layers

inductive IoError where
  | below_undo_floor (tip floor : ℕ)
  | other (message : String)
deriving DecidableEq, Repr

structure CoinsBackend where
  coins : Table OutPoint Coin
  undos : Table ℕ (BlockHash × BlockUndo)
  tip : ℕ
  undo_floor : Option (ℕ × BlockHash)

abbrev UndoRow := ℕ × BlockHash × BlockUndo

namespace CoinsBackend

def empty : CoinsBackend := ⟨∅, ∅, 0, none⟩

def get (be : CoinsBackend) (outpoint : OutPoint) : Option Coin := be.coins.lookup outpoint

def have_ (be : CoinsBackend) (outpoint : OutPoint) : Bool := (be.coins.lookup outpoint).isSome

def coins_len (be : CoinsBackend) : ℕ := be.coins.entries.length

def tip_height (be : CoinsBackend) : ℕ := be.tip

def undo_at (be : CoinsBackend) (height : ℕ) : Option BlockUndo := (be.undos.lookup height).map Prod.snd

def undo_block_hash (be : CoinsBackend) (height : ℕ) : Option BlockHash :=
  (be.undos.lookup height).map Prod.fst

def max_undo_height (be : CoinsBackend) : ℕ := be.undos.keys.foldr max 0

def ensure_tip_respects_floor (be : CoinsBackend) : Option ℕ → Except IoError Unit
  | some tip =>
    match be.undo_floor with
    | some (floor, _) => if tip < floor then .error (.below_undo_floor tip floor) else .ok ()
    | none => .ok ()
  | none => .ok ()

def insert_undos (undos : Table ℕ (BlockHash × BlockUndo)) (rows : List UndoRow) :
    Table ℕ (BlockHash × BlockUndo) :=
  insertAll undos (rows.map fun row => (row.1, row.2))

def drop_undos_above (undos : Table ℕ (BlockHash × BlockUndo)) (tip : ℕ) :
    Table ℕ (BlockHash × BlockUndo) :=
  eraseAll undos (undos.keys.filter fun height => tip < height)

def commit_inner (be : CoinsBackend) (dirty : Delta OutPoint Coin) (new_undos : List UndoRow)
    (tip : Option ℕ) : Except IoError CoinsBackend :=
  match be.ensure_tip_respects_floor tip with
  | .error e => .error e
  | .ok () =>
    let coins := applyDelta be.coins dirty
    let undos := insert_undos be.undos new_undos
    match tip with
    | some t => .ok { be with coins, undos := drop_undos_above undos t, tip := t }
    | none => .ok { be with coins, undos }

def commit (be : CoinsBackend) (dirty : Delta OutPoint Coin) (new_undos : List UndoRow) (tip : ℕ) :
    Except IoError CoinsBackend :=
  be.commit_inner dirty new_undos (some tip)

def commit_partial (be : CoinsBackend) (dirty : Delta OutPoint Coin) : Except IoError CoinsBackend :=
  be.commit_inner dirty [] none

theorem commit_inner_coins {be be' : CoinsBackend} {dirty : Delta OutPoint Coin} {rows : List UndoRow}
    {tip : Option ℕ} (h : be.commit_inner dirty rows tip = .ok be') (op : OutPoint) :
    be'.get op = overlaid dirty be.get op := by
  unfold commit_inner at h
  split at h
  · cases h
  · split at h <;> (cases h; exact lookup_applyDelta _ _ _)

theorem commit_ok {be : CoinsBackend} {tip : ℕ} (h : be.ensure_tip_respects_floor (some tip) = .ok ())
    (dirty : Delta OutPoint Coin) (rows : List UndoRow) : ∃ be', be.commit dirty rows tip = .ok be' := by
  unfold commit commit_inner
  rw [h]
  exact ⟨_, rfl⟩

theorem commit_partial_ok (be : CoinsBackend) (dirty : Delta OutPoint Coin) :
    ∃ be', be.commit_partial dirty = .ok be' := by
  exact ⟨_, rfl⟩

theorem lookup_drop_undos_above (undos : Table ℕ (BlockHash × BlockUndo)) (tip height : ℕ) :
    (drop_undos_above undos tip).lookup height = if tip < height then none else undos.lookup height := by
  rw [drop_undos_above, lookup_eraseAll]
  by_cases h : tip < height
  · simp only [List.mem_filter, h, decide_true, and_true, if_true, ite_eq_left_iff]
    exact fun hk => AList.lookup_eq_none.mpr fun hm => hk (AList.mem_keys.mp hm)
  · simp [h]

end CoinsBackend

end AvilaNode
