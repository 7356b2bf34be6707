import Mathlib.Data.List.Basic

/-! Append logs: a file written through one handle, and the loop that reads records back from its front. -/

namespace AvilaNode

structure LogFile where
  bytes : List UInt8
  position : ℕ
deriving DecidableEq, Repr

namespace LogFile

def write_all (file : LogFile) (bytes : List UInt8) : LogFile where
  bytes := file.bytes.take file.position ++ List.replicate (file.position - file.bytes.length) 0 ++ bytes
    ++ file.bytes.drop (file.position + bytes.length)
  position := file.position + bytes.length

def set_len (file : LogFile) (len : ℕ) : LogFile :=
  { file with bytes := file.bytes.take len ++ List.replicate (len - file.bytes.length) 0 }

def at_end (bytes : List UInt8) : LogFile := ⟨bytes, bytes.length⟩

theorem write_all_at_end (bytes tail : List UInt8) : (at_end bytes).write_all tail = at_end (bytes ++ tail) := by
  simp [write_all, at_end]

theorem set_len_append (bytes tail : List UInt8) (position : ℕ) :
    (LogFile.mk (bytes ++ tail) position).set_len bytes.length = ⟨bytes, position⟩ := by
  simp [set_len]

end LogFile

namespace RecordLog

variable {α σ : Type}

def scan (read : List UInt8 → Option (α × List UInt8)) (apply : σ → α → σ) :
    ℕ → σ → List UInt8 → σ × List UInt8
  | 0, state, bytes => (state, bytes)
  | fuel + 1, state, bytes =>
    match read bytes with
    | none => (state, bytes)
    | some (record, rest) => scan read apply fuel (apply state record) rest

variable {read : List UInt8 → Option (α × List UInt8)} {apply : σ → α → σ}

theorem scan_records {write : α → List UInt8} {records : List α} {tail : List UInt8} {fuel : ℕ} (state : σ)
    (hread : ∀ front record back, records = front ++ record :: back →
      read (write record ++ (back.flatMap write ++ tail)) = some (record, back.flatMap write ++ tail))
    (htail : read tail = none) (hf : records.length ≤ fuel) :
    scan read apply fuel state (records.flatMap write ++ tail) = (records.foldl apply state, tail) := by
  induction records generalizing state fuel with
  | nil =>
    cases fuel with
    | zero => rfl
    | succ fuel => simp [scan, htail]
  | cons record records ih =>
    rw [List.length_cons] at hf
    obtain ⟨fuel, rfl⟩ := Nat.exists_eq_add_of_le' hf
    have hr := hread [] record records rfl
    rw [List.flatMap_cons, List.append_assoc, ← Nat.add_assoc, scan, hr]
    apply ih
    · rintro front next back rfl
      exact hread (record :: front) next back rfl
    · omega

end RecordLog

end AvilaNode
