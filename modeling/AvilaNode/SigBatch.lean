import AvilaNode.BucketSums
import Mathlib.Algebra.Module.ZMod

/-! Batched ECDSA verification with untrusted advice. -/

namespace AvilaNode.SigBatch

open BucketSums

abbrev U256 := BitVec 256

def ORDER : U256 := 0xfffffffffffffffffffffffffffffffebaaedce6af48a03bbfd25e8cd0364141#256

def FIELD_P : U256 := 0xfffffffffffffffffffffffffffffffffffffffffffffffffffffffefffffc2f#256

abbrev Scalar := ZMod ORDER.toNat

instance : NeZero ORDER.toNat := ⟨by decide⟩

/-- What `k256` gives: a group of the order, and points by their coordinates. -/
class Curve (Point : Type) [AddCommGroup Point] where
  GENERATOR : Point
  x : Point → U256
  y : Point → U256
  from_coordinates : U256 → U256 → Option Point
  decompress : U256 → Bool → Option Point
  order_smul : ∀ p : Point, ORDER.toNat • p = 0
  x_lt : ∀ p, p ≠ 0 → x p < FIELD_P
  from_coordinates_eq_some : ∀ {x' y' p}, from_coordinates x' y' = some p ↔ p ≠ 0 ∧ x p = x' ∧ y p = y'
  decompress_eq_some : ∀ {x' odd p}, decompress x' odd = some p ↔ p ≠ 0 ∧ x p = x' ∧ (y p).getLsbD 0 = odd

structure Advice where
  byte : UInt8
  key_y : U256
  nonce_y : Option U256
deriving DecidableEq

abbrev PubKey := UInt8 × U256

structure Record where
  z : U256
  sig : U256 × U256
  pubkey : PubKey
  advice : Advice
deriving DecidableEq

inductive Outcome where
  | Valid
  | Fallback
deriving DecidableEq, Repr

def scalar_reduced (bytes : U256) : Scalar := (bytes.toNat : Scalar)

def scalar_strict (bytes : U256) : Option Scalar :=
  if ORDER ≤ bytes then none
  else if bytes = 0 then none
  else some (bytes.toNat : Scalar)

def to_repr (s : Scalar) : U256 := BitVec.ofNat 256 s.val

def repr_byte (s : Scalar) (i : ℕ) : ℕ := s.val / (2 ^ 8) ^ (31 - i) % 2 ^ 8

def invert (s : Scalar) : Option Scalar := if s * s⁻¹ = 1 then some s⁻¹ else none

def tag_odd (tag : UInt8) : Option Bool :=
  if tag = 0x02 then some false
  else if tag = 0x03 then some true
  else none

def prefixes (running : Scalar) : List Scalar → List Scalar × Scalar
  | [] => ([], running)
  | s :: ss =>
    let (products, running') := prefixes (running * s) ss
    (running :: products, running')

def invert_batch (ss : List Scalar) : Option (List Scalar) :=
  let (products, running) := prefixes 1 ss
  (invert running).map fun inv =>
    ((products.zip ss).foldr (fun p out => (p.1 * out.2 :: out.1, out.2 * p.2)) ([], inv)).1

/-- The low 96 bits of the first buffer where they are not zero; no buffer is left when the system's entropy
fails. -/
def fresh_coeff : List U256 → Scalar
  | [] => 1
  | buf :: bufs =>
    let a : Scalar := scalar_reduced (BitVec.ofNat 256 (buf.toNat % 2 ^ 96))
    if a ≠ 0 then a else fresh_coeff bufs

def W : ℕ := 8

def WINDOWS : ℕ := 256 / W

def BUCKETS : ℕ := 2 ^ W

def SHORT_WINDOWS : ℕ := 96 / W

section

variable {Point : Type} [AddCommGroup Point]

def window_digits (terms : List (Point × Scalar × Bool)) (w : ℕ) : List (ℕ × Point) :=
  (terms.filter fun t => !(t.2.2 && decide (SHORT_WINDOWS ≤ w))).map fun t => (repr_byte t.2.1 (31 - w), t.1)

def msm_vartime (terms : List (Point × Scalar × Bool)) : Point :=
  windows W (fun w => (running_sums ((scatter BUCKETS (window_digits terms w)).drop 1)).2) WINDOWS 0

end

variable {Point : Type} [AddCommGroup Point] [Curve Point]

def y_is_odd (p : Point) : Bool := (Curve.y p).getLsbD 0

def pubkey_point (rec : Record) : Option Point :=
  (tag_odd rec.pubkey.1).bind fun odd =>
    let hinted : Option Point :=
      (Curve.from_coordinates rec.pubkey.2 rec.advice.key_y).filter fun p => y_is_odd p == odd
    hinted.or (Curve.decompress rec.pubkey.2 odd)

def nonce_x (byte : UInt8) (r : Scalar) : Option U256 :=
  if byte &&& 2 ≠ 0 then
    let x := to_repr r + ORDER
    if FIELD_P ≤ x then none else some x
  else some (to_repr r)

def nonce_point (rec : Record) (r : Scalar) : Option Point :=
  if 3 < rec.advice.byte then none
  else
    match nonce_x rec.advice.byte r with
    | none => none
    | some x =>
      match rec.advice.nonce_y with
      | some ny =>
        match (Curve.from_coordinates x ny : Option Point) with
        | none => none
        | some p => if y_is_odd p ≠ decide (rec.advice.byte &&& 1 = 1) then none else some p
      | none => Curve.decompress x (decide (rec.advice.byte &&& 1 = 1))

structure Parsed where
  r : Scalar
  s : Scalar
  z : Scalar
  group : ℕ
deriving DecidableEq

def enter (groups : List (PubKey × Point)) (pubkey : PubKey) (q : Point) : ℕ × List (PubKey × Point) :=
  match groups.findIdx? fun g => g.1 == pubkey with
  | some gi => (gi, groups)
  | none => (groups.length, groups ++ [(pubkey, q)])

def parse_records (groups : List (PubKey × Point)) : List Record → Option (List Parsed × List (PubKey × Point))
  | [] => some ([], groups)
  | rec :: recs =>
    match scalar_strict rec.sig.1, scalar_strict rec.sig.2, (pubkey_point rec : Option Point) with
    | some r, some s, some q =>
      let (gi, groups) := enter groups rec.pubkey q
      (parse_records groups recs).map fun rest => (⟨r, s, scalar_reduced rec.z, gi⟩ :: rest.1, rest.2)
    | _, _, _ => none

structure Sums (Point : Type) where
  terms : List (Point × Scalar × Bool)
  group_acc : List Scalar
  gen_scalar : Scalar

def Sums.add (st : Sums Point) (nonce : Point) (a v u : Scalar) (gi : ℕ) : Sums Point where
  terms := st.terms ++ [(nonce, a, true)]
  group_acc := st.group_acc.modify gi fun acc => acc - a * v
  gen_scalar := st.gen_scalar + a * u

/-- The loop over the records, each with its parse and the inverse of its `s`. -/
def sum_records (entropy : ℕ → List U256) :
    ℕ → List (Record × Parsed × Scalar) → Sums Point → Option (Sums Point)
  | _, [], st => some st
  | i, (rec, p, sinv) :: recs, st =>
    match (nonce_point rec p.r : Option Point) with
    | none => none
    | some nonce =>
      sum_records entropy (i + 1) recs
        (st.add nonce (fresh_coeff (entropy i)) (p.r * sinv) (p.z * sinv) p.group)

def Sums.all (st : Sums Point) (groups : List (PubKey × Point)) : List (Point × Scalar × Bool) :=
  st.terms ++ (groups.zip st.group_acc).map (fun g => (g.1.2, g.2, false)) ++
    [(Curve.GENERATOR, -st.gen_scalar, false)]

variable [DecidableEq Point]

/-- `batch_verify`, with the buffers the system's entropy fills, or `none` where it fails at once. -/
def batch_verify (Point : Type) [AddCommGroup Point] [Curve Point] [DecidableEq Point]
    (entropy : Option (ℕ → List U256)) (records : List Record) : Outcome :=
  if records = [] then .Valid
  else
    match parse_records ([] : List (PubKey × Point)) records with
    | none => .Fallback
    | some (parsed, groups) =>
      match invert_batch (parsed.map Parsed.s), entropy with
      | some sinv, some entropy =>
        match sum_records entropy 0 (records.zip (parsed.zip sinv)) ⟨[], groups.map fun _ => 0, 0⟩ with
        | none => .Fallback
        | some st => if msm_vartime (st.all groups) = 0 then .Valid else .Fallback
      | _, _ => .Fallback

/-- Ordinary verification: `s⁻¹ (z G + r Q)` is a finite point whose x coordinate is `r` modulo the order. -/
def ecdsa_verify (Point : Type) [AddCommGroup Point] [Curve Point] (rec : Record) : Prop :=
  ∃ r s odd, ∃ q : Point, scalar_strict rec.sig.1 = some r ∧ scalar_strict rec.sig.2 = some s ∧
    tag_odd rec.pubkey.1 = some odd ∧ Curve.decompress rec.pubkey.2 odd = some q ∧
    let nonce := (scalar_reduced rec.z * s⁻¹).val • (Curve.GENERATOR : Point) + (r * s⁻¹).val • q
    nonce ≠ 0 ∧ ((Curve.x nonce).toNat : Scalar) = r

end AvilaNode.SigBatch
