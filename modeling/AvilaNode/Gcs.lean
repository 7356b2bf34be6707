import AvilaNode.TransactionCodec
import Mathlib.Data.List.Destutter

/-! Basic block filters: a Golomb-coded set over the keyed hashes of a block's scripts. -/

namespace AvilaNode.Gcs

open ByteStrings Transaction

def BASIC_P : ℕ := 19

def BASIC_M : ℕ := 784931

structure SipState where
  v0 : BitVec 64
  v1 : BitVec 64
  v2 : BitVec 64
  v3 : BitVec 64

def sipround (s : SipState) : SipState :=
  let v0 := s.v0 + s.v1
  let v1 := s.v1.rotateLeft 13 ^^^ v0
  let v0 := v0.rotateLeft 32
  let v2 := s.v2 + s.v3
  let v3 := s.v3.rotateLeft 16 ^^^ v2
  let v0 := v0 + v3
  let v3 := v3.rotateLeft 21 ^^^ v0
  let v2 := v2 + v1
  let v1 := v1.rotateLeft 17 ^^^ v2
  let v2 := v2.rotateLeft 32
  ⟨v0, v1, v2, v3⟩

def absorb (s : SipState) (m : BitVec 64) : SipState :=
  let s := sipround (sipround { s with v3 := s.v3 ^^^ m })
  { s with v0 := s.v0 ^^^ m }

/-- The whole words of `data`, then the last one: what is left, with the length's low byte on top. -/
def siphash_words (len : ℕ) : ℕ → List UInt8 → List (BitVec 64)
  | 0, _ => []
  | fuel + 1, data =>
    if 8 ≤ data.length then BitVec.ofNat 64 (value (data.take 8)) :: siphash_words len fuel (data.drop 8)
    else [BitVec.ofNat 64 (value data + len % 256 * 2 ^ 56)]

def siphash24 (k0 k1 : BitVec 64) (data : List UInt8) : BitVec 64 :=
  let s : SipState := ⟨k0 ^^^ 0x736f6d6570736575, k1 ^^^ 0x646f72616e646f6d, k0 ^^^ 0x6c7967656e657261,
    k1 ^^^ 0x7465646279746573⟩
  let s := (siphash_words data.length (data.length + 1) data).foldl absorb s
  let s := sipround (sipround (sipround (sipround { s with v2 := s.v2 ^^^ 0xff })))
  s.v0 ^^^ s.v1 ^^^ s.v2 ^^^ s.v3

example : siphash24 0x0706050403020100 0x0f0e0d0c0b0a0908 ((List.range 15).map UInt8.ofNat)
    = 0xa129ca6149be45e5 := by decide +kernel

def fast_range64 (x : BitVec 64) (n : ℕ) : ℕ := x.toNat * n / 2 ^ 64

def filter_keys (block_hash : BlockHash) : BitVec 64 × BitVec 64 :=
  (BitVec.ofNat 64 (value (block_hash.to_bytes.take 8)),
    BitVec.ofNat 64 (value ((block_hash.to_bytes.drop 8).take 8)))

def hash_to_range (element : List UInt8) (k0 k1 : BitVec 64) (f : ℕ) : ℕ := fast_range64 (siphash24 k0 k1 element) f

structure BitWriter where
  out : List UInt8
  used : ℕ

namespace BitWriter

def write_bit (w : BitWriter) (bit : Bool) : BitWriter :=
  let out := if w.used = 0 then w.out ++ [0] else w.out
  let last := out.length - 1
  { out := if bit then out.set last (out.getD last 0 ||| UInt8.ofNat (0x80 >>> w.used)) else out
    used := (w.used + 1) % 8 }

def write (w : BitWriter) (data nbits : ℕ) : BitWriter :=
  (List.range nbits).reverse.foldl (fun w i => w.write_bit (data.testBit i)) w

end BitWriter

def write_ones (w : BitWriter) : ℕ → ℕ → BitWriter
  | 0, _ => w
  | fuel + 1, q => if 0 < q then write_ones (w.write (2 ^ 64 - 1) (min q 64)) fuel (q - min q 64) else w

def gr_encode (w : BitWriter) (p x : ℕ) : BitWriter :=
  let q := x >>> p
  ((write_ones w q q).write 0 1).write x p

def encode_deltas : BitWriter → ℕ → List ℕ → BitWriter
  | w, _, [] => w
  | w, last, v :: hashed => encode_deltas (gr_encode w BASIC_P (v - last)) v hashed

def basic_elements (block : Block) (undo : BlockUndo) : List Script :=
  let created := (block.transactions.flatMap Transaction.outputs).map TxOut.script_pubkey
  let spent := (undo.txs.flatMap TxUndo.spent).map fun coin => coin.out.script_pubkey
  (((created.filter fun s => !(s.head? == some OP_RETURN || s.isEmpty))
    ++ spent.filter fun s => !s.isEmpty).insertionSort (· ≤ ·)).destutter (· ≠ ·)

variable (w : BitWriter)

theorem BitWriter.length_write_bit (bit : Bool) :
    (w.write_bit bit).out.length ≤ w.out.length + 1 := by
  unfold write_bit
  split_ifs <;> simp

theorem BitWriter.length_write (data nbits : ℕ) :
    (w.write data nbits).out.length ≤ w.out.length + nbits := by
  have hfold : ∀ (is : List ℕ) (w : BitWriter),
      (is.foldl (fun w i => w.write_bit (data.testBit i)) w).out.length ≤ w.out.length + is.length := by
    intro is
    induction is with
    | nil => simp
    | cons i is ih =>
      intro w
      have hb := w.length_write_bit (data.testBit i)
      have ht := ih (w.write_bit (data.testBit i))
      rw [List.foldl_cons, List.length_cons]
      omega
  simpa only [write, List.length_reverse, List.length_range] using hfold (List.range nbits).reverse w

theorem length_write_ones (fuel : ℕ) (w : BitWriter) (q : ℕ) :
    (write_ones w fuel q).out.length ≤ w.out.length + q := by
  induction fuel generalizing w q with
  | zero => simp [write_ones]
  | succ fuel ih =>
    rw [write_ones]
    split
    · have hw := w.length_write (2 ^ 64 - 1) (min q 64)
      have ht := ih (w.write (2 ^ 64 - 1) (min q 64)) (q - min q 64)
      omega
    · omega

theorem length_gr_encode (p x : ℕ) :
    (gr_encode w p x).out.length ≤ w.out.length + x / 2 ^ p + 1 + p := by
  have hq := length_write_ones (x >>> p) w (x >>> p)
  have hz := (write_ones w (x >>> p) (x >>> p)).length_write 0 1
  have hr := ((write_ones w (x >>> p) (x >>> p)).write 0 1).length_write x p
  rw [gr_encode]
  rw [Nat.shiftRight_eq_div_pow] at *
  omega

theorem length_encode_deltas {hashed : List ℕ} {last f : ℕ} (hs : hashed.Pairwise (· ≤ ·))
    (hl : ∀ v ∈ hashed, last ≤ v) (hf : ∀ v ∈ hashed, v ≤ f) :
    (encode_deltas w last hashed).out.length ≤ w.out.length + (f - last) / 2 ^ BASIC_P + 20 * hashed.length := by
  induction hashed generalizing w last with
  | nil => simp [encode_deltas]
  | cons v hashed ih =>
    rw [List.pairwise_cons] at hs
    rw [List.forall_mem_cons] at hl hf
    have hg := length_gr_encode w BASIC_P (v - last)
    have ht := ih (gr_encode w BASIC_P (v - last)) hs.2 hs.1 hf.2
    have hd : (v - last) / 2 ^ BASIC_P + (f - v) / 2 ^ BASIC_P ≤ (f - last) / 2 ^ BASIC_P := by
      have hsum : v - last + (f - v) = f - last := by omega
      rw [← hsum]
      exact Nat.div_add_div_le_add_div
    rw [encode_deltas, List.length_cons]
    rw [show BASIC_P = 19 from rfl] at *
    omega

theorem fast_range64_le (x : BitVec 64) (n : ℕ) : fast_range64 x n ≤ n := by
  exact Nat.div_le_of_le_mul (Nat.mul_le_mul_right n (by omega))

theorem length_basic_elements (block : Block) (undo : BlockUndo) : (basic_elements block undo).length ≤
    (block.transactions.flatMap Transaction.outputs).length + (undo.txs.flatMap TxUndo.spent).length := by
  unfold basic_elements
  refine (List.destutter_sublist _ _).length_le.trans ?_
  rw [List.length_insertionSort, List.length_append]
  apply Nat.add_le_add
  · exact (List.length_filter_le _ _).trans (by rw [List.length_map])
  · exact (List.length_filter_le _ _).trans (by rw [List.length_map])

variable [Platform]

def build_basic (block : Block) (undo : BlockUndo) : List UInt8 :=
  let (k0, k1) := filter_keys block.block_hash
  let elements := basic_elements block undo
  let f := elements.length * BASIC_M
  let hashed := (elements.map fun e => hash_to_range e k0 k1 f).insertionSort (· ≤ ·)
  write_compact_size hashed.length ++ (encode_deltas ⟨[], 0⟩ 0 hashed).out

def filter_hash (encoded : List UInt8) : Hash256 := Platform.sha256d encoded

def compute_header (fhash prev_header : Hash256) : Hash256 :=
  Platform.sha256d (fhash.to_bytes ++ prev_header.to_bytes)

theorem length_build_basic (block : Block) (undo : BlockUndo) :
    (build_basic block undo).length ≤ 9 + 22 * (basic_elements block undo).length := by
  have hsorted := List.pairwise_insertionSort (· ≤ ·) ((basic_elements block undo).map fun e =>
    hash_to_range e (filter_keys block.block_hash).1 (filter_keys block.block_hash).2
      ((basic_elements block undo).length * BASIC_M))
  have hle : ∀ v ∈ ((basic_elements block undo).map fun e =>
      hash_to_range e (filter_keys block.block_hash).1 (filter_keys block.block_hash).2
        ((basic_elements block undo).length * BASIC_M)).insertionSort (· ≤ ·),
      v ≤ (basic_elements block undo).length * BASIC_M := by
    intro v hv
    obtain ⟨e, -, rfl⟩ := List.mem_map.mp ((List.mem_insertionSort _).mp hv)
    exact fast_range64_le _ _
  have hlen := length_encode_deltas ⟨[], 0⟩ hsorted (fun v _ => Nat.zero_le v) hle
  have hsize : ∀ n, (write_compact_size n).length ≤ 9 := by
    intro n
    unfold write_compact_size
    split_ifs <;> simp
  have hprefix := hsize (basic_elements block undo).length
  rw [build_basic]
  simp only [List.length_append, List.length_insertionSort, List.length_map, List.length_nil] at hlen ⊢
  rw [show BASIC_P = 19 from rfl, show BASIC_M = 784931 from rfl] at *
  omega

end AvilaNode.Gcs
