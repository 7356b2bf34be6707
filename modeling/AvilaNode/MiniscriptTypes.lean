import Mathlib.Tactic.Common

/-! The properties of miniscript fragments, and the rules that compute them. -/

namespace AvilaNode.Miniscript

inductive MsContext where
  | P2wsh
  | Tapscript
deriving DecidableEq, Repr

def is_tapscript (ctx : MsContext) : Bool := ctx == .Tapscript

def SEQUENCE_LOCKTIME_TYPE_FLAG : ℕ := 1 <<< 22
def LOCKTIME_THRESHOLD : ℕ := 500000000

inductive Property where
  | B | V | K | W | z | o | n | d | u | e | f | s | m | x | g | h | i | j | k
deriving DecidableEq, Repr

def Property.bit : Property → ℕ
  | .B => 0
  | .V => 1
  | .K => 2
  | .W => 3
  | .z => 4
  | .o => 5
  | .n => 6
  | .d => 7
  | .u => 8
  | .e => 9
  | .f => 10
  | .s => 11
  | .m => 12
  | .x => 13
  | .g => 14
  | .h => 15
  | .i => 16
  | .j => 17
  | .k => 18

structure MsType where
  bits : BitVec 32
deriving DecidableEq, Repr

def mst (letters : List Property) : MsType := ⟨letters.foldl (fun flags c => flags ||| 1#32 <<< c.bit) 0#32⟩

namespace MsType

def empty : MsType := ⟨0#32⟩

def union (self other : MsType) : MsType := ⟨self.bits ||| other.bits⟩

def inter (self other : MsType) : MsType := ⟨self.bits &&& other.bits⟩

def has_all (self other : MsType) : Bool := other.bits &&& ~~~self.bits == 0#32

def if_ (self : MsType) (cond : Bool) : MsType := if cond then self else empty

def has (t : MsType) (p : Property) : Bool := t.bits.getLsbD p.bit

end MsType

open MsType

def sanitize_type (e : MsType) : MsType :=
  let num := ([mst [.K], mst [.V], mst [.B], mst [.W]].filter e.has_all).length
  if num = 0 then empty else e

inductive Fragment where
  | Just0
  | Just1
  | PkK
  | PkH
  | Older
  | After
  | Sha256
  | Ripemd160
  | Hash256
  | Hash160
  | WrapA
  | WrapS
  | WrapC
  | WrapD
  | WrapV
  | WrapJ
  | WrapN
  | AndV
  | AndB
  | OrB
  | OrC
  | OrD
  | OrI
  | AndOr
  | Thresh
  | Multi
  | MultiA
deriving DecidableEq, Repr

def tl_conflict (a b : MsType) : Bool :=
  (a.has_all (mst [.g]) && b.has_all (mst [.h])) || (a.has_all (mst [.h]) && b.has_all (mst [.g]))
    || (a.has_all (mst [.i]) && b.has_all (mst [.j])) || (a.has_all (mst [.j]) && b.has_all (mst [.i]))

structure Tally where
  all_e : Bool
  all_m : Bool
  args : ℕ
  num_s : ℕ
  acc_tl : MsType
deriving DecidableEq, Repr

def tally_sub (k : ℕ) (acc : Tally) (t : MsType) : Tally where
  all_e := acc.all_e && t.has_all (mst [.e])
  all_m := acc.all_m && t.has_all (mst [.m])
  args := acc.args + (if t.has_all (mst [.z]) then 0 else if t.has_all (mst [.o]) then 1 else 2)
  num_s := acc.num_s + (if t.has_all (mst [.s]) then 1 else 0)
  acc_tl := ((acc.acc_tl.union t).inter (mst [.g, .h, .i, .j])).union ((mst [.k]).if_
    ((acc.acc_tl.inter t).has_all (mst [.k]) && (decide (k ≤ 1) || !tl_conflict acc.acc_tl t)))

def tally (k : ℕ) : ℕ → Tally → List MsType → Option Tally
  | _, acc, [] => some acc
  | i, acc, t :: ts =>
    let need := if i = 0 then mst [.B, .d, .u] else mst [.W, .d, .u]
    if !t.has_all need then none else tally k (i + 1) (tally_sub k acc t) ts

def thresh_type (sub_types : List MsType) (k n_subs : ℕ) : MsType :=
  match tally k 0 ⟨true, true, 0, 0, mst [.k]⟩ sub_types with
  | none => empty
  | some acc =>
    (mst [.B, .d, .u]).union ((mst [.z]).if_ (acc.args == 0)) |>.union ((mst [.o]).if_ (acc.args == 1))
      |>.union ((mst [.e]).if_ (acc.all_e && acc.num_s == n_subs))
      |>.union ((mst [.m]).if_ (acc.all_e && acc.all_m && decide (n_subs - k ≤ acc.num_s)))
      |>.union ((mst [.s]).if_ (decide (n_subs - k < acc.num_s)))
      |>.union acc.acc_tl

/-- `ghij` of either, and `k` where both have it and their locks do not conflict. -/
def both_timelocks (x y : MsType) : MsType :=
  ((x.union y).inter (mst [.g, .h, .i, .j])).union
    ((mst [.k]).if_ (x.has_all (mst [.k]) && y.has_all (mst [.k]) && !tl_conflict x y))

def either_timelocks (x y : MsType) : MsType :=
  ((x.union y).inter (mst [.g, .h, .i, .j])).union ((x.inter y).inter (mst [.k]))

def compute_type (fragment : Fragment) (x y z : MsType) (sub_types : List MsType) (k n_subs : ℕ) (ctx : MsContext) :
    MsType :=
  match fragment with
  | .PkK => mst [.K, .o, .n, .u, .d, .e, .m, .s, .x, .k]
  | .PkH => mst [.K, .n, .u, .d, .e, .m, .s, .x, .k]
  | .Older => ((mst [.g]).if_ (k &&& SEQUENCE_LOCKTIME_TYPE_FLAG != 0)).union
      ((mst [.h]).if_ (k &&& SEQUENCE_LOCKTIME_TYPE_FLAG == 0)) |>.union (mst [.B, .z, .f, .m, .x, .k])
  | .After => ((mst [.i]).if_ (decide (LOCKTIME_THRESHOLD ≤ k))).union
      ((mst [.j]).if_ (decide (k < LOCKTIME_THRESHOLD))) |>.union (mst [.B, .z, .f, .m, .x, .k])
  | .Sha256 | .Ripemd160 | .Hash256 | .Hash160 => mst [.B, .o, .n, .u, .d, .m, .k]
  | .Just1 => mst [.B, .z, .u, .f, .m, .x, .k]
  | .Just0 => mst [.B, .z, .u, .d, .e, .m, .s, .x, .k]
  | .WrapA => ((mst [.W]).if_ (x.has_all (mst [.B]))).union (x.inter (mst [.g, .h, .i, .j, .k]))
      |>.union (x.inter (mst [.u, .d, .f, .e, .m, .s])) |>.union (mst [.x])
  | .WrapS => ((mst [.W]).if_ (x.has_all (mst [.B, .o]))).union (x.inter (mst [.g, .h, .i, .j, .k]))
      |>.union (x.inter (mst [.u, .d, .f, .e, .m, .s, .x]))
  | .WrapC => ((mst [.B]).if_ (x.has_all (mst [.K]))).union (x.inter (mst [.g, .h, .i, .j, .k]))
      |>.union (x.inter (mst [.o, .n, .d, .f, .e, .m])) |>.union (mst [.u, .s])
  | .WrapD => ((mst [.B]).if_ (x.has_all (mst [.V, .z]))).union ((mst [.o]).if_ (x.has_all (mst [.z])))
      |>.union ((mst [.e]).if_ (x.has_all (mst [.f]))) |>.union (x.inter (mst [.g, .h, .i, .j, .k]))
      |>.union (x.inter (mst [.m, .s])) |>.union ((mst [.u]).if_ (is_tapscript ctx)) |>.union (mst [.n, .d, .x])
  | .WrapV => ((mst [.V]).if_ (x.has_all (mst [.B]))).union (x.inter (mst [.g, .h, .i, .j, .k]))
      |>.union (x.inter (mst [.z, .o, .n, .m, .s])) |>.union (mst [.f, .x])
  | .WrapJ => ((mst [.B]).if_ (x.has_all (mst [.B, .n]))).union ((mst [.e]).if_ (x.has_all (mst [.f])))
      |>.union (x.inter (mst [.g, .h, .i, .j, .k])) |>.union (x.inter (mst [.o, .u, .m, .s]))
      |>.union (mst [.n, .d, .x])
  | .WrapN => (x.inter (mst [.g, .h, .i, .j, .k])).union (x.inter (mst [.B, .z, .o, .n, .d, .f, .e, .m, .s]))
      |>.union (mst [.u, .x])
  | .AndV => ((y.inter (mst [.K, .V, .B])).if_ (x.has_all (mst [.V]))).union (x.inter (mst [.n]))
      |>.union ((y.inter (mst [.n])).if_ (x.has_all (mst [.z])))
      |>.union (((x.union y).inter (mst [.o])).if_ ((x.union y).has_all (mst [.z])))
      |>.union ((x.inter y).inter (mst [.d, .m, .z])) |>.union ((x.union y).inter (mst [.s]))
      |>.union ((mst [.f]).if_ (y.has_all (mst [.f]) || x.has_all (mst [.s])))
      |>.union (y.inter (mst [.u, .x])) |>.union (both_timelocks x y)
  | .AndB => ((x.inter (mst [.B])).if_ (y.has_all (mst [.W]))).union
        (((x.union y).inter (mst [.o])).if_ ((x.union y).has_all (mst [.z])))
      |>.union (x.inter (mst [.n])) |>.union ((y.inter (mst [.n])).if_ (x.has_all (mst [.z])))
      |>.union (((x.inter y).inter (mst [.e])).if_ ((x.inter y).has_all (mst [.s])))
      |>.union ((x.inter y).inter (mst [.d, .z, .m]))
      |>.union ((mst [.f]).if_
        ((x.inter y).has_all (mst [.f]) || x.has_all (mst [.s, .f]) || y.has_all (mst [.s, .f])))
      |>.union ((x.union y).inter (mst [.s])) |>.union (mst [.u, .x]) |>.union (both_timelocks x y)
  | .OrB => ((mst [.B]).if_ (x.has_all (mst [.B, .d]) && y.has_all (mst [.W, .d]))).union
        (((x.union y).inter (mst [.o])).if_ ((x.union y).has_all (mst [.z])))
      |>.union (((x.inter y).inter (mst [.m])).if_ ((x.union y).has_all (mst [.s]) && (x.inter y).has_all (mst [.e])))
      |>.union ((x.inter y).inter (mst [.z, .s, .e])) |>.union (mst [.d, .u, .x]) |>.union (either_timelocks x y)
  | .OrD => ((y.inter (mst [.B])).if_ (x.has_all (mst [.B, .d, .u]))).union
        ((x.inter (mst [.o])).if_ (y.has_all (mst [.z])))
      |>.union (((x.inter y).inter (mst [.m])).if_ (x.has_all (mst [.e]) && (x.union y).has_all (mst [.s])))
      |>.union ((x.inter y).inter (mst [.z, .s])) |>.union (y.inter (mst [.u, .f, .d, .e])) |>.union (mst [.x])
      |>.union (either_timelocks x y)
  | .OrC => ((y.inter (mst [.V])).if_ (x.has_all (mst [.B, .d, .u]))).union
        ((x.inter (mst [.o])).if_ (y.has_all (mst [.z])))
      |>.union (((x.inter y).inter (mst [.m])).if_ (x.has_all (mst [.e]) && (x.union y).has_all (mst [.s])))
      |>.union ((x.inter y).inter (mst [.z, .s])) |>.union (mst [.f, .x]) |>.union (either_timelocks x y)
  | .OrI => ((x.inter y).inter (mst [.V, .B, .K, .u, .f, .s])).union
        ((mst [.o]).if_ ((x.inter y).has_all (mst [.z])))
      |>.union (((x.union y).inter (mst [.e])).if_ ((x.union y).has_all (mst [.f])))
      |>.union (((x.inter y).inter (mst [.m])).if_ ((x.union y).has_all (mst [.s])))
      |>.union ((x.union y).inter (mst [.d])) |>.union (mst [.x]) |>.union (either_timelocks x y)
  | .AndOr => (((y.inter z).inter (mst [.B, .K, .V])).if_ (x.has_all (mst [.B, .d, .u]))).union
        (((x.inter y).inter z).inter (mst [.z]))
      |>.union (((x.union (y.inter z)).inter (mst [.o])).if_ ((x.union (y.inter z)).has_all (mst [.z])))
      |>.union ((y.inter z).inter (mst [.u]))
      |>.union ((z.inter (mst [.f])).if_ (x.has_all (mst [.s]) || y.has_all (mst [.f])))
      |>.union (z.inter (mst [.d]))
      |>.union ((z.inter (mst [.e])).if_ (x.has_all (mst [.s]) || y.has_all (mst [.f])))
      |>.union ((((x.inter y).inter z).inter (mst [.m])).if_
        (x.has_all (mst [.e]) && ((x.union y).union z).has_all (mst [.s])))
      |>.union ((z.inter (x.union y)).inter (mst [.s])) |>.union (mst [.x])
      |>.union (((x.union y).union z).inter (mst [.g, .h, .i, .j]))
      |>.union ((mst [.k]).if_
        (x.has_all (mst [.k]) && y.has_all (mst [.k]) && z.has_all (mst [.k]) && !tl_conflict x y))
  | .Multi => mst [.B, .n, .u, .d, .e, .m, .s, .k]
  | .MultiA => mst [.B, .u, .d, .e, .m, .s, .k]
  | .Thresh => thresh_type sub_types k n_subs

namespace MsType

variable (p : Property)

@[simp] theorem has_empty : empty.has p = false := by simp [has, empty]

@[simp] theorem has_union (t s : MsType) (p : Property) : (t.union s).has p = (t.has p || s.has p) := by
  simp [has, union]

@[simp] theorem has_inter (t s : MsType) (p : Property) : (t.inter s).has p = (t.has p && s.has p) := by
  simp [has, inter]

@[simp] theorem has_if (t : MsType) (c : Bool) (p : Property) : (t.if_ c).has p = (c && t.has p) := by
  cases c <;> simp [if_]

theorem bit_inj {p q : Property} (h : p.bit = q.bit) : p = q := by cases p <;> cases q <;> first | rfl | cases h

theorem bit_lt : p.bit < 32 := by cases p <;> decide

variable (letters : List Property)

theorem getLsbD_fold (flags : BitVec 32) (i : ℕ) :
    (letters.foldl (fun flags c => flags ||| 1#32 <<< c.bit) flags).getLsbD i = true ↔
      flags.getLsbD i = true ∨ ∃ c ∈ letters, c.bit = i := by
  induction letters generalizing flags with
  | nil => simp
  | cons c letters ih =>
    have hc : (1#32 <<< c.bit).getLsbD i = true ↔ c.bit = i := by
      have := bit_lt c
      simp [BitVec.getLsbD_shiftLeft]
      omega
    simp only [List.foldl_cons, ih, BitVec.getLsbD_or, Bool.or_eq_true, hc, List.mem_cons, or_assoc,
      exists_eq_or_imp]

@[simp] theorem has_mst : (mst letters).has p = decide (p ∈ letters) := by
  rw [Bool.eq_iff_iff, decide_eq_true_iff]
  refine (getLsbD_fold letters 0#32 p.bit).trans ?_
  simp only [BitVec.getLsbD_zero, Bool.false_eq_true, false_or]
  constructor
  · rintro ⟨c, hc, he⟩
    exact bit_inj he ▸ hc
  · exact fun h => ⟨p, h, rfl⟩

@[simp] theorem has_all_mst (t : MsType) (letters : List Property) : t.has_all (mst letters) = letters.all t.has := by
  rw [Bool.eq_iff_iff, has_all, beq_iff_eq, List.all_eq_true]
  constructor
  · intro h p hp
    have hb := congrArg (fun b => b.getLsbD p.bit) h
    have hm : (mst letters).has p = true := by simpa using hp
    have hlt := bit_lt p
    simpa [has, hlt, show (mst letters).bits.getLsbD p.bit = true from hm] using hb
  · intro h
    apply BitVec.eq_of_getLsbD_eq
    intro i hi
    rw [BitVec.getLsbD_and, BitVec.getLsbD_zero, Bool.and_eq_false_iff]
    by_cases hm : (mst letters).bits.getLsbD i = true
    · right
      obtain hz | ⟨c, hc, rfl⟩ := (getLsbD_fold letters 0#32 i).mp hm
      · simp at hz
      · simpa [has, hi] using h c hc
    · exact Or.inl (by simpa using hm)

end MsType

variable {e : MsType}

theorem has_of_sanitize {p : Property} (h : (sanitize_type e).has p = true) : e.has p = true := by
  unfold sanitize_type at h
  dsimp only at h
  split at h
  · simp at h
  · exact h

theorem sanitize_of_base (h : e.has .B ∨ e.has .V ∨ e.has .K ∨ e.has .W) : sanitize_type e = e := by
  unfold sanitize_type
  refine if_neg ?_
  rw [← ne_eq, ← Nat.pos_iff_ne_zero, List.length_pos_iff_exists_mem]
  rcases h with h | h | h | h
  · exact ⟨mst [.B], by simp [h]⟩
  · exact ⟨mst [.V], by simp [h]⟩
  · exact ⟨mst [.K], by simp [h]⟩
  · exact ⟨mst [.W], by simp [h]⟩

theorem sanitize_of_has {p : Property} (h : (sanitize_type e).has p = true) : sanitize_type e = e := by
  unfold sanitize_type at h ⊢
  dsimp only at h ⊢
  split
  · next hn =>
    rw [if_pos hn, MsType.has_empty] at h
    cases h
  · rfl

theorem base_of_sanitize (h : sanitize_type e ≠ empty) :
    (sanitize_type e).has .B ∨ (sanitize_type e).has .V ∨ (sanitize_type e).has .K ∨ (sanitize_type e).has .W := by
  unfold sanitize_type at h ⊢
  dsimp only at h ⊢
  split
  · next hn => exact absurd (if_pos hn) h
  · next hn =>
    rw [← ne_eq, ← Nat.pos_iff_ne_zero, List.length_pos_iff_exists_mem] at hn
    obtain ⟨t, ht⟩ := hn
    rw [List.mem_filter] at ht
    simp only [List.mem_cons, List.not_mem_nil, or_false] at ht
    rcases ht with ⟨rfl | rfl | rfl | rfl, ht⟩ <;> simp at ht <;> simp [ht]

end AvilaNode.Miniscript
