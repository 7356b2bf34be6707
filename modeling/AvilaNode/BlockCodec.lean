import AvilaNode.BodyBinding

/-! Headers and blocks on the wire. -/

namespace AvilaNode

open ByteReader ByteStrings Decoder

namespace Decoder

def read_word (w : ℕ) : Decoder (BitVec w) := do
  let value ← read_le (w / 8)
  pure (BitVec.ofNat w value)

def read_i32_le : Decoder ℤ := do
  let bits ← read_word 32
  pure bits.toInt

end Decoder

def write_word {w : ℕ} (word : BitVec w) : List UInt8 := le (w / 8) word.toNat

namespace Decoder

theorem read_word_reads {w : ℕ} (hw : 8 ∣ w) (word : BitVec w) : Reads (read_word w) (write_word word) word := by
  obtain ⟨n, rfl⟩ := hw
  have hlt : word.toNat < 256 ^ (8 * n / 8) := by
    rw [Nat.mul_div_cancel_left n (by norm_num), show (256 : ℕ) = 2 ^ 8 by norm_num, ← pow_mul]
    exact word.isLt
  have h := ((read_le_inverts (8 * n / 8)).reads hlt).map (BitVec.ofNat (8 * n))
  rwa [BitVec.ofNat_toNat, BitVec.setWidth_eq] at h

end Decoder

namespace BlockHeader

def read : Decoder BlockHeader := do
  let version ← read_i32_le
  let prev_block_hash ← read_hash
  let merkle_root ← read_hash
  let time ← read_u32_le
  let bits ← read_word 32
  let nonce ← read_u32_le
  pure ⟨version, prev_block_hash, merkle_root, time, bits, nonce⟩

theorem read_reads {header : BlockHeader} (h : header.Typed) : Reads read header.encode header := by
  have hversion : Reads read_i32_le (le 4 (BitVec.ofInt 32 header.version).toNat) header.version := by
    have hw := (read_word_reads (by norm_num) (BitVec.ofInt 32 header.version)).map BitVec.toInt
    rwa [BitVec.toInt_ofInt_eq_self (by decide) h.version.1 h.version.2] at hw
  unfold read encode
  simp only [List.append_assoc]
  exact hversion.bind ((read_hash_inverts.reads trivial).bind ((read_hash_inverts.reads trivial).bind
    ((read_u32_le_inverts.reads h.time).bind ((read_word_reads (by norm_num) header.bits).bind
      ((read_u32_le_inverts.reads h.nonce).map _)))))

end BlockHeader

def Transaction.CodecValid (tx : Transaction) : Prop := tx.Encodable ∧ (tx.inputs ≠ [] ∨ tx.outputs = [])

theorem Transaction.read_reads {tx : Transaction} (h : tx.CodecValid) : Reads Transaction.read tx.encode tx :=
  Transaction.read_inverts.reads h

namespace Block

def read : Decoder Block := do
  let header ← BlockHeader.read
  let count ← read_compact_size
  let transactions ← repeated Transaction.read count
  pure ⟨header, transactions⟩

def encode (block : Block) : List UInt8 :=
  block.header.encode ++ write_compact_size block.transactions.length ++ block.transactions.flatMap Transaction.encode

structure CodecValid (block : Block) : Prop where
  header : block.header.Typed
  count : block.transactions.length ≤ MAX_SIZE
  transactions : ∀ tx ∈ block.transactions, tx.CodecValid

theorem read_reads {block : Block} (h : block.CodecValid) : Reads read block.encode block := by
  unfold read encode
  rw [List.append_assoc]
  exact (BlockHeader.read_reads h.header).bind ((read_compact_size_inverts.reads h.count).bind
    ((Reads.repeated fun tx htx => Transaction.read_reads (h.transactions tx htx)).map _))

end Block

end AvilaNode
