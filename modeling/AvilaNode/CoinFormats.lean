import AvilaNode.EpochFiles

/-! The coin and undo records of every format on disk, read back as they were written. -/

namespace AvilaNode

namespace SliceReader

variable {α β : Type}

def Takes (read : SliceReader α) (bytes : List UInt8) (a : α) : Prop := ∀ rest, read (bytes ++ rest) = some (a, rest)

theorem Takes.pure (a : α) : Takes (Pure.pure a : SliceReader α) [] a := fun _ => rfl

theorem Takes.bind {read : SliceReader α} {next : α → SliceReader β} {front back : List UInt8} {a : α} {b : β}
    (h : Takes read front a) (hn : Takes (next a) back b) : Takes (read >>= next) (front ++ back) b := by
  intro rest
  rw [List.append_assoc, bind_some (h _)]
  exact hn rest

theorem Takes.map {read : SliceReader α} {bytes : List UInt8} {a : α} (h : Takes read bytes a) {f : α → β} {b : β}
    (hf : f a = b) : Takes (read >>= fun a => Pure.pure (f a)) bytes b := by
  intro rest
  rw [bind_some (h rest), hf]
  rfl

theorem Takes.whole {read : SliceReader α} {bytes : List UInt8} {a : α} (h : Takes read bytes a) :
    read bytes = some (a, []) := by
  have he := h []
  rwa [List.append_nil] at he

end SliceReader

namespace CoinCodec

open SliceReader

variable {n m : ℕ} {bytes rest : List UInt8}

theorem continuation_of_div {fuel : ℕ} (h : n / 128 = m / 128) : continuation fuel n = continuation fuel m := by
  cases fuel with
  | zero => rfl
  | succ fuel =>
    have hsmall : n ≤ 0x7f ↔ m ≤ 0x7f := by omega
    rw [continuation, continuation, h]
    simp only [hsmall]

theorem continuation_fuel {fuel : ℕ} (h : n < 2 ^ (7 * (fuel + 1))) :
    continuation (fuel + 1) n = continuation fuel n := by
  induction fuel generalizing n with
  | zero => rw [continuation, continuation, if_pos (by omega)]
  | succ fuel ih =>
    rw [continuation]
    conv_rhs => rw [continuation]
    split
    · rfl
    · rw [ih]
      rw [Nat.mul_succ, Nat.pow_add] at h
      omega

theorem read_varint_ge {max : ℕ} (h : read_varint_from max n bytes = some (m, rest)) : n * 128 ≤ m := by
  induction bytes generalizing n with
  | nil => cases h
  | cons byte bytes ih =>
    rw [read_varint_from] at h
    dsimp only at h
    split_ifs at h
    · cases h
      omega
    · have := ih h
      omega

theorem write_read_varint_from {max : ℕ} (hm : m < 2 ^ 64) (h : read_varint_from max n bytes = some (m, rest)) :
    write_varint m ++ rest = continuation 9 (n * 128) ++ bytes := by
  induction bytes generalizing n with
  | nil => cases h
  | cons byte bytes ih =>
    rw [read_varint_from] at h
    dsimp only at h
    split_ifs at h with hmax hlast
    · cases h
      have hbyte : UInt8.ofNat ((n * 128 + byte.toNat % 128) % 128) = byte := by
        apply UInt8.toNat_inj.mp
        rw [UInt8.toNat_ofNat']
        omega
      have hlead : (n * 128 + byte.toNat % 128) / 128 = n * 128 / 128 := by omega
      rw [write_varint, hbyte, continuation_of_div hlead]
      simp
    · have hge := read_varint_ge h
      have hlt := byte.toNat_lt
      have hbyte : UInt8.ofNat ((n * 128 + byte.toNat % 128) % 128 + 128) = byte := by
        apply UInt8.toNat_inj.mp
        rw [UInt8.toNat_ofNat']
        omega
      have hdiv : (n * 128 + byte.toNat % 128 + 1) * 128 / 128 - 1 = n * 128 + byte.toNat % 128 := by omega
      have hlead : (n * 128 + byte.toNat % 128) / 128 = n * 128 / 128 := by omega
      rw [ih h, continuation, if_neg (by omega), hdiv, hbyte, ← continuation_fuel (by omega),
        continuation_of_div hlead]
      simp

theorem write_read_varint (h : read_varint U64_MAX bytes = some (m, rest)) :
    m ≤ U64_MAX ∧ write_varint m ++ rest = bytes := by
  have hlt := (read_varint_le h).2
  have hm : m < 2 ^ 64 := by
    unfold U64_MAX at hlt
    omega
  have hw := write_read_varint_from hm h
  exact ⟨by unfold U64_MAX; omega, hw⟩

def decimal_amount (x : ℕ) : ℕ :=
  if x = 0 then 0
  else
    let e := (x - 1) % 10
    let x := (x - 1) / 10
    (if e < 9 then x / 9 * 10 + (x % 9 + 1) else x + 1) * 10 ^ e

theorem decompress_amount_eq {x : ℕ} (h : decimal_amount x < 2 ^ 64) : decompress_amount x = decimal_amount x := by
  unfold decimal_amount at h ⊢
  unfold decompress_amount
  split
  · rfl
  · rename_i h0
    rw [if_neg h0] at h
    exact wrapping_scale_eq h

theorem strip_zeros_eq {e k : ℕ} (hk : k ≤ e) (hd : k < e → m % 10 ≠ 0) : strip_zeros e (m * 10 ^ k) = (m, k) := by
  induction e generalizing k with
  | zero =>
    obtain rfl : k = 0 := by omega
    simp [strip_zeros]
  | succ e ih =>
    rw [strip_zeros]
    cases k with
    | zero => rw [pow_zero, mul_one, if_neg (hd (by omega))]
    | succ k =>
      have hten : m * 10 ^ (k + 1) = m * 10 ^ k * 10 := by rw [pow_succ, mul_assoc]
      rw [hten, if_pos (Nat.mul_mod_left _ _), Nat.mul_div_cancel _ (by norm_num),
        ih (by omega) (fun hlt => hd (by omega))]

theorem compress_amount_eq {k : ℕ} (hm : m ≠ 0) (hk : k ≤ 9) (hd : k < 9 → m % 10 ≠ 0) : compress_amount (m * 10 ^ k)
      = if k < 9 then 1 + (m / 10 * 9 + m % 10 - 1) * 10 + k else 1 + (m - 1) * 10 + 9 := by
  have hne : m * 10 ^ k ≠ 0 := Nat.mul_ne_zero hm (by positivity)
  rw [compress_amount, if_neg hne, strip_zeros_eq hk hd]

theorem compress_decimal_amount (x : ℕ) : compress_amount (decimal_amount x) = x := by
  unfold decimal_amount
  split
  · rename_i h0
    rw [h0]
    rfl
  · rename_i h0
    dsimp only
    split
    · rename_i he
      rw [compress_amount_eq (by omega) he.le (by omega), if_pos he]
      omega
    · rename_i he
      rw [compress_amount_eq (by omega) (by omega) (by omega), if_neg he]
      omega

theorem compress_decompress_amount {x : ℕ} (h : decimal_amount x < 2 ^ 64) :
    compress_amount (decompress_amount x) = x := by
  rw [decompress_amount_eq h, compress_decimal_amount]

end CoinCodec

namespace EpochFiles

open SliceReader ByteStrings

theorem read_many_takes {α : Type} {read : SliceReader α} {write : α → List UInt8} {values : List α}
    (h : ∀ a ∈ values, Takes read (write a) a) :
      Takes (read_many read values.length) (values.flatMap write) values := by
  induction values with
  | nil => exact Takes.pure []
  | cons a values ih =>
    rw [List.forall_mem_cons] at h
    exact h.1.bind ((ih h.2).map rfl)

theorem read_count_takes {n : ℕ} (h : n < 2 ^ 64) : Takes read_count (write_compact_size n) n := by
  intro rest
  have hwide : ∀ {width : ℕ} {b0 : UInt8}, ¬ b0 < 253 → width ≠ 0 → n < 256 ^ width →
      (if b0 < 253 then 0 else if b0 = 253 then 2 else if b0 = 254 then 4 else 8) = width →
      read_count (b0 :: (le width n ++ rest)) = some (n, rest) := by
    intro width b0 hb hw hn hwidth
    rw [read_count]
    rw [hwidth, if_neg (by simp), if_neg hw, List.take_left' (length_le width n), List.drop_left' (length_le width n),
      value_le hn]
  unfold write_compact_size
  split_ifs with h1 h2 h3
  · have hb : (UInt8.ofNat n).toNat = n := by rw [UInt8.toNat_ofNat']; omega
    have hlt : UInt8.ofNat n < 253 := by rw [UInt8.lt_iff_toNat_lt, hb]; exact h1
    rw [List.singleton_append, read_count]
    rw [if_pos hlt, if_neg (by omega), if_pos rfl, hb, List.drop_zero]
  · exact hwide (by decide) (by decide) (by norm_num; omega) (by decide)
  · exact hwide (by decide) (by decide) (by norm_num; omega) (by decide)
  · exact hwide (by decide) (by decide) (by norm_num; omega) (by decide)

theorem take_takes {bytes : List UInt8} {n : ℕ} (h : bytes.length = n) : Takes (CoinCodec.take n) bytes bytes :=
  fun rest => h ▸ CoinCodec.take_append bytes rest

theorem read_hash_takes (hash : Hash256) : Takes EpochFiles.read_hash hash.to_bytes hash := by
  apply (take_takes hash.length_to_bytes).map
  rw [Hash256.to_bytes_eq, List.reverse_reverse, value_le (by simpa using hash.isLt)]
  simp

end EpochFiles

namespace CoinFormats

open SliceReader ByteReader ByteStrings CoinCodec Transaction Decoder

inductive CoinFormat where
  | Legacy
  | Compact
deriving DecidableEq, Repr

def decode_coin_from : Decoder Coin := do
  let value ← read_i64_le
  let script_pubkey ← read_var_bytes
  let height ← read_u32_le
  let coinbase ← read_u8
  pure ⟨⟨value, script_pubkey⟩, height, coinbase != 0⟩

def read_overwritten : Decoder (OutPoint × Coin) := do
  let txid ← read_hash
  let vout ← read_u32_le
  let coin ← decode_coin_from
  pure (⟨txid, vout⟩, coin)

def read_tx_undo : Decoder TxUndo := do
  let spent ← read_compact_size >>= repeated decode_coin_from
  let overwritten ← read_compact_size >>= repeated read_overwritten
  pure ⟨spent, overwritten⟩

def decode_undo_legacy : Decoder (BlockHash × BlockUndo) := do
  let hash ← read_hash
  let txs ← read_compact_size >>= repeated read_tx_undo
  pure (hash, ⟨txs⟩)

variable [PublicKeys]

def encode_coin (c : Coin) : CoinFormat → List UInt8
  | .Legacy => write_i64 c.out.value ++ write_var_bytes c.out.script_pubkey ++ le 4 c.height
      ++ [if c.coinbase then 1 else 0]
  | .Compact =>
    let (size_id, payload) := compress_script c.out.script_pubkey
    write_varint (c.height * 2 + c.coinbase.toNat) ++ write_varint (compress_amount c.out.value.toNat)
      ++ write_varint size_id ++ payload

def coin_reader : CoinFormat → SliceReader Coin
  | .Legacy => fun bytes => (decode_coin_from bytes).toOption
  | .Compact => decode_coin_compact

def decode_coin (bytes : List UInt8) (fmt : CoinFormat) : Option Coin := (coin_reader fmt bytes).map Prod.fst

def write_overwritten (fmt : CoinFormat) (e : OutPoint × Coin) : List UInt8 :=
  e.1.txid.to_bytes ++ le 4 e.1.vout ++ encode_coin e.2 fmt

def write_tx_undo (fmt : CoinFormat) (tx : TxUndo) : List UInt8 :=
  write_compact_size tx.spent.length ++ tx.spent.flatMap (encode_coin · fmt)
    ++ (write_compact_size tx.overwritten.length ++ tx.overwritten.flatMap (write_overwritten fmt))

def encode_undo (hash : BlockHash) (u : BlockUndo) (fmt : CoinFormat) : List UInt8 :=
  hash.to_bytes ++ (write_compact_size u.txs.length ++ u.txs.flatMap (write_tx_undo fmt))

def undo_reader : CoinFormat → SliceReader (BlockHash × BlockUndo)
  | .Legacy => fun bytes => (decode_undo_legacy bytes).toOption
  | .Compact => EpochFiles.decode_undo_compact

def decode_undo (bytes : List UInt8) (fmt : CoinFormat) : Option (BlockHash × BlockUndo) :=
  (undo_reader fmt bytes).map Prod.fst

def write_coin (coin : Coin) : List UInt8 :=
  let (size_id, payload) := compress_script coin.out.script_pubkey
  write_varint (coin.height * 2 + coin.coinbase.toNat) ++ write_varint (compress_amount coin.out.value.toNat)
    ++ write_varint size_id ++ payload

def read_coin : SliceReader Coin := do
  let code ← read_varint U32_MAX
  let amount_raw ← read_varint U64_MAX
  let size_id ← read_varint U32_MAX
  let script ← decompress_script size_id
  pure ⟨⟨(BitVec.ofNat 64 (decompress_amount amount_raw)).toInt, script⟩, code >>> 1, code &&& 1 == 1⟩

def script_limit : CoinFormat → ℕ
  | .Legacy => MAX_SIZE
  | .Compact => U32_MAX - 6

def count_limit : CoinFormat → ℕ
  | .Legacy => MAX_SIZE
  | .Compact => U64_MAX

structure Held (fmt : CoinFormat) (c : Coin) : Prop where
  value : money_range c.out.value = true
  height : c.height < 2 ^ 31
  script : c.out.script_pubkey.length ≤ script_limit fmt

structure HeldUndo (fmt : CoinFormat) (u : BlockUndo) : Prop where
  txs : u.txs.length ≤ count_limit fmt
  spent : ∀ tx ∈ u.txs, tx.spent.length ≤ count_limit fmt ∧ ∀ c ∈ tx.spent, Held fmt c
  overwritten : ∀ tx ∈ u.txs, tx.overwritten.length ≤ count_limit fmt
    ∧ ∀ e ∈ tx.overwritten, e.1.vout < 2 ^ 32 ∧ Held fmt e.2

variable {c : Coin}

theorem decode_coin_from_reads (h : Held .Legacy c) : Reads decode_coin_from (encode_coin c .Legacy) c := by
  have hmoney := money_range_iff.mp h.value
  have hfits : i64_fits c.out.value = true := by
    rw [i64_fits_iff, I64_MIN, I64_MAX]
    unfold MAX_MONEY at hmoney
    omega
  have hheight : c.height < 2 ^ 32 := h.height.trans (by norm_num)
  have hflag : ((if c.coinbase then 1 else 0 : UInt8) != 0) = c.coinbase := by cases c.coinbase <;> rfl
  rw [encode_coin, List.append_assoc, List.append_assoc]
  apply (read_i64_le_inverts.reads hfits).bind
  apply (read_var_bytes_inverts.reads h.script).bind
  apply (read_u32_le_inverts.reads hheight).bind
  exact (read_u8_inverts.reads trivial).map_eq (by rw [hflag])

theorem storable (h : Held .Compact c) : Storable c := by
  have hbit := Bool.toNat_le c.coinbase
  have hheight := h.height
  have hscript : c.out.script_pubkey.length ≤ U32_MAX - 6 := h.script
  constructor
  · unfold U32_MAX
    omega
  · unfold U32_MAX at hscript ⊢
    rcases compress_script_id c.out.script_pubkey with hid | hid <;> omega

omit [PublicKeys] in
theorem takes_of_reads {α : Type} {read : Decoder α} {bytes : List UInt8} {a : α} (h : Reads read bytes a) :
    Takes (fun bytes => (read bytes).toOption) bytes a := by
  intro rest
  dsimp only
  rw [h rest]
  rfl

variable {fmt : CoinFormat}

theorem coin_takes (h : Held fmt c) : Takes (coin_reader fmt) (encode_coin c fmt) c := by
  cases fmt with
  | Legacy => exact takes_of_reads (decode_coin_from_reads h)
  | Compact => exact decode_encode_coin h.value (storable h)

theorem write_coin_takes (h : Held .Compact c) : Takes read_coin (write_coin c) c := by
  have hread : read_coin = decode_coin_compact := by
    unfold read_coin decode_coin_compact
    simp only [Nat.shiftRight_one, Nat.and_one_is_mod]
  rw [hread]
  exact decode_encode_coin h.value (storable h)

omit [PublicKeys] in
theorem counted_reads {α : Type} {read : Decoder α} {write : α → List UInt8} {values : List α}
    (hl : values.length ≤ MAX_SIZE) (h : ∀ a ∈ values, Reads read (write a) a) :
    Reads (read_compact_size >>= repeated read) (write_compact_size values.length ++ values.flatMap write) values :=
  (read_compact_size_inverts.reads hl).bind (Reads.repeated h)

variable {e : OutPoint × Coin}

theorem read_overwritten_reads (hv : e.1.vout < 2 ^ 32) (h : Held .Legacy e.2) :
    Reads read_overwritten (write_overwritten .Legacy e) e := by
  rw [write_overwritten, List.append_assoc]
  apply (read_hash_inverts.reads trivial).bind
  apply (read_u32_le_inverts.reads hv).bind
  exact (decode_coin_from_reads h).map_eq rfl

variable {u : BlockUndo}

theorem read_tx_undo_reads (h : HeldUndo .Legacy u) :
    ∀ tx ∈ u.txs, Reads read_tx_undo (write_tx_undo .Legacy tx) tx := by
  intro tx htx
  obtain ⟨hspent, hcoins⟩ := h.spent tx htx
  obtain ⟨hover, hentries⟩ := h.overwritten tx htx
  apply (counted_reads hspent fun c hc => decode_coin_from_reads (hcoins c hc)).bind
  exact (counted_reads hover fun e he => read_overwritten_reads (hentries e he).1 (hentries e he).2).map_eq rfl

theorem read_overwritten_takes (hv : e.1.vout < 2 ^ 32) (h : Held .Compact e.2) :
    Takes EpochFiles.read_overwritten (write_overwritten .Compact e) e := by
  rw [write_overwritten, List.append_assoc]
  apply (EpochFiles.read_hash_takes e.1.txid).bind
  apply (EpochFiles.take_takes (length_le 4 e.1.vout)).bind
  have hvout : value (le 4 e.1.vout) = e.1.vout := value_le (by norm_num; omega)
  exact (coin_takes h).map (by rw [hvout])

theorem read_tx_undo_takes (h : HeldUndo .Compact u) :
    ∀ tx ∈ u.txs, Takes EpochFiles.read_tx_undo (write_tx_undo .Compact tx) tx := by
  intro tx htx
  obtain ⟨hspent, hcoins⟩ := h.spent tx htx
  obtain ⟨hover, hentries⟩ := h.overwritten tx htx
  have hfew : ∀ {n : ℕ}, n ≤ count_limit .Compact → n < 2 ^ 64 := by
    intro n hn
    rw [count_limit, U64_MAX] at hn
    omega
  rw [write_tx_undo, List.append_assoc]
  apply (EpochFiles.read_count_takes (hfew hspent)).bind
  apply (EpochFiles.read_many_takes fun c hc => coin_takes (hcoins c hc)).bind
  apply (EpochFiles.read_count_takes (hfew hover)).bind
  exact (EpochFiles.read_many_takes fun e he => read_overwritten_takes (hentries e he).1 (hentries e he).2).map rfl

theorem undo_takes (hash : BlockHash) (h : HeldUndo fmt u) :
    Takes (undo_reader fmt) (encode_undo hash u fmt) (hash, u) := by
  cases fmt with
  | Legacy =>
    apply takes_of_reads
    apply (read_hash_inverts.reads trivial).bind
    exact (counted_reads h.txs (read_tx_undo_reads h)).map_eq rfl
  | Compact =>
    have htxs := h.txs
    rw [count_limit, U64_MAX] at htxs
    apply (EpochFiles.read_hash_takes hash).bind
    apply (EpochFiles.read_count_takes (by omega)).bind
    exact (EpochFiles.read_many_takes (read_tx_undo_takes h)).map rfl

theorem script_of_reader {bytes rest : List UInt8} (h : coin_reader fmt bytes = some (c, rest)) :
    c.out.script_pubkey.length ≤ script_limit fmt := by
  cases fmt with
  | Legacy =>
    have hok : decode_coin_from bytes = .ok (c, rest) := by
      change (decode_coin_from bytes).toOption = some (c, rest) at h
      cases hd : decode_coin_from bytes with
      | error e =>
        rw [hd] at h
        cases h
      | ok r =>
        rw [hd] at h
        cases h
        rfl
    obtain ⟨value, b₁, -, hok⟩ := ByteReader.bind_eq_ok.mp hok
    obtain ⟨script, b₂, hscript, hok⟩ := ByteReader.bind_eq_ok.mp hok
    obtain ⟨height, b₃, -, hok⟩ := ByteReader.bind_eq_ok.mp hok
    obtain ⟨coinbase, b₄, -, hok⟩ := ByteReader.bind_eq_ok.mp hok
    cases hok
    exact (read_var_bytes_inverts.write_read hscript).1
  | Compact =>
    have hid := (storable_of_decode h).2
    change c.out.script_pubkey.length ≤ U32_MAX - 6
    rcases compress_script_id c.out.script_pubkey with hsmall | heq
    · have hlength := length_decompress_script (decompress_compress_script c.out.script_pubkey [])
      unfold U32_MAX
      omega
    · omega

theorem decode_encode_coin_iff (hv : money_range c.out.value = true) (hh : c.height < 2 ^ 31) (fmt : CoinFormat) :
    decode_coin (encode_coin c fmt) fmt = some c ↔ c.out.script_pubkey.length ≤ script_limit fmt := by
  constructor
  · intro h
    obtain ⟨⟨c', rest⟩, hread, rfl⟩ := Option.map_eq_some_iff.mp h
    exact script_of_reader hread
  · intro h
    rw [decode_coin, (coin_takes ⟨hv, hh, h⟩).whole]
    rfl

/-- Coins and undo records within a format's limits are read back as they were written, to the last byte, and so are
the numbers and amounts inside them. -/
theorem records_lossless :
    (∀ fmt c, money_range c.out.value = true → c.height < 2 ^ 31 →
      (decode_coin (encode_coin c fmt) fmt = some c ↔ c.out.script_pubkey.length ≤ script_limit fmt)
      ∧ (c.out.script_pubkey.length ≤ script_limit fmt →
        ∀ rest, coin_reader fmt (encode_coin c fmt ++ rest) = some (c, rest)))
    ∧ (∀ c, money_range c.out.value = true → c.height < 2 ^ 31 →
      c.out.script_pubkey.length ≤ script_limit .Compact →
        ∀ rest, read_coin (write_coin c ++ rest) = some (c, rest))
    ∧ (∀ fmt hash u, HeldUndo fmt u → decode_undo (encode_undo hash u fmt) fmt = some (hash, u)
      ∧ ∀ rest, undo_reader fmt (encode_undo hash u fmt ++ rest) = some ((hash, u), rest))
    ∧ (∀ n : ℕ, money_range n = true → decompress_amount (compress_amount n) = n)
    ∧ (∀ x, money_range (decimal_amount x) = true →
      decompress_amount x = decimal_amount x ∧ compress_amount (decompress_amount x) = x)
    ∧ (∀ n ≤ U64_MAX, ∀ rest, read_varint U64_MAX (write_varint n ++ rest) = some (n, rest))
    ∧ ∀ bytes n rest, read_varint U64_MAX bytes = some (n, rest) → n ≤ U64_MAX ∧ write_varint n ++ rest = bytes := by
  have hsmall : ∀ {n : ℕ}, money_range n = true → n < 2 ^ 64 := by
    intro n hn
    rw [money_range_iff, MAX_MONEY] at hn
    omega
  refine ⟨?_, ?_, ?_, ?_, ?_, ?_, ?_⟩
  · intro fmt c hv hh
    exact ⟨decode_encode_coin_iff hv hh fmt, fun hs => coin_takes ⟨hv, hh, hs⟩⟩
  · intro c hv hh hs
    exact write_coin_takes ⟨hv, hh, hs⟩
  · intro fmt hash u hu
    refine ⟨?_, undo_takes hash hu⟩
    rw [decode_undo, (undo_takes hash hu).whole]
    rfl
  · intro n hn
    exact decompress_compress_amount (hsmall hn)
  · intro x hx
    exact ⟨decompress_amount_eq (hsmall hx), compress_decompress_amount (hsmall hx)⟩
  · intro n hn rest
    exact read_write_varint rest (by unfold U64_MAX at hn; omega) hn
  · intro bytes n rest h
    exact write_read_varint h

end CoinFormats

section

attribute [local instance] RunFile.PublicKeys.none

open CoinFormats CoinCodec

/-- A raw script of four gigabytes has a size word over its 32 bits, and an amount code that wraps is not the code of
the amount it gives. -/
theorem long_script_unread : (∃ c : Coin, money_range c.out.value = true ∧ c.height < 2 ^ 31
      ∧ c.out.script_pubkey.length = 2 ^ 32 ∧ decode_coin (encode_coin c .Compact) .Compact ≠ some c)
    ∧ compress_amount (decompress_amount 2100000000000000) ≠ 2100000000000000 := by
  constructor
  · have hlen : (List.replicate (2 ^ 32) (0x51 : UInt8)).length = 2 ^ 32 := List.length_replicate
    refine ⟨⟨⟨5, List.replicate (2 ^ 32) 0x51⟩, 1, false⟩, rfl, by norm_num, hlen, ?_⟩
    rw [ne_eq, decode_encode_coin_iff rfl (by norm_num)]
    rw [hlen]
    decide
  · decide +kernel

end

end AvilaNode
