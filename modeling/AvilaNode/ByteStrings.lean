import Mathlib.Data.List.Basic
import Mathlib.Tactic.Ring

/-! Integers and strings as byte strings. -/

namespace AvilaNode.ByteStrings

def le : ℕ → ℕ → List UInt8
  | 0, _ => []
  | width + 1, n => UInt8.ofNat n :: le width (n / 256)

def value : List UInt8 → ℕ
  | [] => 0
  | byte :: bytes => byte.toNat + 256 * value bytes

@[simp] theorem le_zero (n : ℕ) : le 0 n = [] := rfl

@[simp] theorem le_succ (width n : ℕ) : le (width + 1) n = UInt8.ofNat n :: le width (n / 256) := rfl

@[simp] theorem value_nil : value [] = 0 := rfl

@[simp] theorem value_cons (byte : UInt8) (bytes : List UInt8) :
    value (byte :: bytes) = byte.toNat + 256 * value bytes := rfl

@[simp] theorem length_le (width n : ℕ) : (le width n).length = width := by
  induction width generalizing n with
  | zero => rfl
  | succ width ih => simp [ih]

variable (bytes : List UInt8)

theorem value_lt : value bytes < 256 ^ bytes.length := by
  induction bytes with
  | nil => simp
  | cons byte bytes ih =>
    have hb := byte.toNat_lt
    simp only [value_cons, List.length_cons, pow_succ]
    omega

theorem value_le {width n : ℕ} (h : n < 256 ^ width) : value (le width n) = n := by
  induction width generalizing n with
  | zero => simp at h; simp [h]
  | succ width ih =>
    have hn : n / 256 < 256 ^ width := Nat.div_lt_of_lt_mul (by rwa [pow_succ'] at h)
    simp only [le_succ, value_cons, ih hn, UInt8.toNat_ofNat']
    omega

theorem value_le_mod (width n : ℕ) : value (le width n) = n % 256 ^ width := by
  induction width generalizing n with
  | zero => simp [Nat.mod_one]
  | succ width ih =>
    rw [le_succ, value_cons, ih, UInt8.toNat_ofNat', pow_succ' 256 width, Nat.mod_mul]

theorem le_value : le bytes.length (value bytes) = bytes := by
  induction bytes with
  | nil => rfl
  | cons byte bytes ih =>
    have hb := byte.toNat_lt
    have hd : (byte.toNat + 256 * value bytes) / 256 = value bytes := by omega
    simp only [List.length_cons, value_cons, le_succ, hd, ih, List.cons.injEq, and_true]
    apply UInt8.toNat_inj.mp
    rw [UInt8.toNat_ofNat']
    omega

theorem le_inj {width n m : ℕ} (hn : n < 256 ^ width) (hm : m < 256 ^ width) (h : le width n = le width m) :
    n = m := by
  rw [← value_le hn, h, value_le hm]

end AvilaNode.ByteStrings

namespace AvilaNode.Utf8

def as_bytes (s : String) : List UInt8 := s.toByteArray.data.toList

def from_utf8 (bytes : List UInt8) : Option String := String.fromUTF8? ⟨bytes.toArray⟩

def continuation (byte : UInt8) : Bool := decide (0x80 ≤ byte ∧ byte ≤ 0xbf)

def char_shape (first : UInt8) : ℕ × UInt8 × UInt8 :=
  if first < 0x80 then (1, 0, 0)
  else if 0xc2 ≤ first ∧ first ≤ 0xdf then (2, 0x80, 0xbf)
  else if first = 0xe0 then (3, 0xa0, 0xbf)
  else if first = 0xed then (3, 0x80, 0x9f)
  else if 0xe1 ≤ first ∧ first ≤ 0xef then (3, 0x80, 0xbf)
  else if first = 0xf0 then (4, 0x90, 0xbf)
  else if first = 0xf4 then (4, 0x80, 0x8f)
  else if 0xf1 ≤ first ∧ first ≤ 0xf3 then (4, 0x80, 0xbf)
  else (0, 0, 0)

def char_rest (shape : ℕ × UInt8 × UInt8) : List UInt8 → List UInt8
  | second :: bytes =>
    if 2 ≤ shape.1 ∧ shape.2.1 ≤ second ∧ second ≤ shape.2.2 then
      second :: (bytes.takeWhile continuation).take (shape.1 - 2)
    else []
  | [] => []

def char_value (width : ℕ) (first : UInt8) (rest : List UInt8) : ℕ :=
  rest.foldl (fun value byte => value * 64 + byte.toNat % 64)
    (first.toNat % (if width = 1 then 128 else if width = 2 then 32 else if width = 3 then 16 else 8))

def lossy : ℕ → List UInt8 → List Char
  | fuel + 1, first :: bytes =>
    let shape := char_shape first
    let rest := char_rest shape bytes
    let char := if shape.1 = rest.length + 1 then Char.ofNat (char_value shape.1 first rest) else '\uFFFD'
    char :: lossy fuel (bytes.drop rest.length)
  | _, _ => []

def from_utf8_lossy (bytes : List UInt8) : String :=
  (from_utf8 bytes).getD (String.ofList (lossy bytes.length bytes))

example : from_utf8_lossy [0x61, 0xff, 0xe2, 0x82, 0xf0, 0x9f, 0x98, 0x80, 0xe2, 0x82, 0xac] = "a\uFFFD\uFFFD😀€" := by
  decide

@[simp] theorem from_utf8_as_bytes (s : String) : from_utf8 (as_bytes s) = some s := by
  rw [from_utf8, as_bytes, Array.toArray_toList, String.fromUTF8?, dif_pos s.isValidUTF8]
  rfl

theorem as_bytes_inj {s t : String} (h : as_bytes s = as_bytes t) : s = t :=
  Option.some.inj (by rw [← from_utf8_as_bytes s, h, from_utf8_as_bytes])

@[simp] theorem from_utf8_lossy_as_bytes (s : String) : from_utf8_lossy (as_bytes s) = s := by
  rw [from_utf8_lossy, from_utf8_as_bytes, Option.getD_some]

end AvilaNode.Utf8
