import AvilaNode.Primitives
import AvilaNode.ByteStrings

/-! The compact coin record: base-128 integers, compressed amounts and compressed scripts. -/

namespace AvilaNode

/-- What the node takes from libsecp256k1 for coin records: whether a 65-byte key is a point, and the
uncompressed key of an x coordinate with a parity. -/
class PublicKeys where
  is_point : List UInt8 → Bool
  from_x_only : List UInt8 → Bool → Option (List UInt8)
  length_from_x_only : ∀ x odd key, from_x_only x odd = some key → key.length = 65
  from_x_only_of_point : ∀ x y, x.length = 32 → y.length = 32 → is_point (4 :: x ++ y) = true →
    from_x_only x ((y.getD 31 0).toNat % 2 == 1) = some (4 :: x ++ y)

theorem PublicKeys.length_of_none (_ : List UInt8) (_ : Bool) (key : List UInt8)
    (h : (none : Option (List UInt8)) = some key) : key.length = 65 := by
  cases h

theorem PublicKeys.none_of_point (x y : List UInt8) (_ : x.length = 32) (_ : y.length = 32) (h : false = true) :
    (none : Option (List UInt8)) = some (4 :: x ++ y) := by
  cases h

abbrev SliceReader := StateT (List UInt8) Option

namespace SliceReader

variable {α β : Type}

variable {bytes : List UInt8}

variable {next : α → SliceReader β} {read : SliceReader α}

theorem bind_eq_some {r : β × List UInt8} :
    (read >>= next) bytes = some r ↔ ∃ a rest, read bytes = some (a, rest) ∧ next a rest = some r := by
  change (read bytes >>= fun p => next p.1 p.2) = _ ↔ _
  cases read bytes with
  | none => simp [bind]
  | some p =>
    obtain ⟨a, rest⟩ := p
    simp [bind]

theorem bind_some {rest : List UInt8} {a : α} (h : read bytes = some (a, rest)) :
    (read >>= next) bytes = next a rest := by
  change (read bytes >>= fun p => next p.1 p.2) = _
  rw [h]
  rfl

def Local (read : SliceReader α) : Prop :=
  ∀ ⦃bytes a rest⦄, read bytes = some (a, rest) → ∀ tail, read (bytes ++ tail) = some (a, rest ++ tail)

theorem Local.bind (hr : Local read) (hn : ∀ a, Local (next a)) :
    Local (read >>= next) := by
  intro bytes b rest h tail
  obtain ⟨a, middle, ha, hb⟩ := bind_eq_some.mp h
  rw [bind_some (hr ha tail)]
  exact hn a hb tail

theorem Local.pure (a : α) : Local (pure a : SliceReader α) := by
  intro bytes b rest h tail
  cases h
  rfl

end SliceReader

namespace CoinCodec

open SliceReader

def take (n : ℕ) : SliceReader (List UInt8) := fun bytes =>
  if bytes.length < n then none else some (bytes.take n, bytes.drop n)

theorem take_append (taken rest : List UInt8) : take taken.length (taken ++ rest) = some (taken, rest) := by
  simp [take]

theorem take_local (n : ℕ) : Local (take n) := by
  intro bytes a rest h tail
  unfold take at h ⊢
  split at h
  · cases h
  · rename_i hn
    cases h
    rw [if_neg (by simp; omega), List.take_append_of_le_length (by omega), List.drop_append_of_le_length (by omega)]

/-- The groups before the last, most significant first: `n = (n >> 7) - 1` between groups. -/
def continuation : ℕ → ℕ → List UInt8
  | 0, _ => []
  | fuel + 1, n =>
    if n ≤ 0x7f then []
    else continuation fuel (n / 128 - 1) ++ [UInt8.ofNat ((n / 128 - 1) % 128 + 128)]

def write_varint (n : ℕ) : List UInt8 := continuation 9 n ++ [UInt8.ofNat (n % 128)]

def read_varint_from (max : ℕ) : ℕ → SliceReader ℕ
  | _, [] => none
  | n, byte :: bytes =>
    if max / 128 < n then none
    else
      let n := n * 128 + byte.toNat % 128
      if byte.toNat < 128 then some (n, bytes)
      else if n = max then none
      else read_varint_from max (n + 1) bytes

def read_varint (max : ℕ) : SliceReader ℕ := read_varint_from max 0

variable {n : ℕ} {bytes rest : List UInt8}

theorem read_continuation {max : ℕ} {fuel : ℕ} (rest : List UInt8) (hn : n < 2 ^ (7 * (fuel + 1))) (hm : n ≤ max) :
    read_varint_from max 0 (continuation fuel n ++ rest) = read_varint_from max (n / 128) rest := by
  induction fuel generalizing n rest with
  | zero => rw [continuation, List.nil_append, Nat.div_eq_of_lt (by simpa using hn)]
  | succ fuel ih =>
    rw [continuation]
    split
    · rw [List.nil_append, Nat.div_eq_of_lt (by omega)]
    rename_i hbig
    have hless : n / 128 - 1 < 2 ^ (7 * (fuel + 1)) := by
      rw [Nat.mul_succ, Nat.pow_add] at hn
      omega
    rw [List.append_assoc, ih _ hless (by omega), List.singleton_append, read_varint_from,
      if_neg (Nat.not_lt.mpr (Nat.div_le_div_right (by omega)))]
    have hbyte : (UInt8.ofNat ((n / 128 - 1) % 128 + 128)).toNat = (n / 128 - 1) % 128 + 128 := by
      rw [UInt8.toNat_ofNat']; omega
    have hvalue : (n / 128 - 1) / 128 * 128 + ((n / 128 - 1) % 128 + 128) % 128 = n / 128 - 1 := by omega
    rw [hbyte, hvalue, if_neg (by omega), if_neg (by omega), Nat.sub_add_cancel (by omega)]

theorem read_write_varint {max n : ℕ} (rest : List UInt8) (hn : n < 2 ^ 64) (hm : n ≤ max) :
    read_varint max (write_varint n ++ rest) = some (n, rest) := by
  rw [read_varint, write_varint, List.append_assoc, read_continuation _ (by omega) hm, List.singleton_append,
    read_varint_from, if_neg (Nat.not_lt.mpr (Nat.div_le_div_right hm))]
  have hbyte : (UInt8.ofNat (n % 128)).toNat = n % 128 := by rw [UInt8.toNat_ofNat']; omega
  rw [hbyte, if_pos (by omega)]
  congr 2
  omega

theorem read_varint_le {max m : ℕ} (h : read_varint_from max n bytes = some (m, rest)) :
    n ≤ max / 128 ∧ m < (max / 128 + 1) * 128 := by
  induction bytes generalizing n with
  | nil => cases h
  | cons byte bytes ih =>
    rw [read_varint_from] at h
    split at h
    · cases h
    dsimp only at h
    split at h
    · cases h
      constructor <;> omega
    · split at h
      · cases h
      · exact ⟨by omega, (ih h).2⟩

theorem read_varint_local (max : ℕ) : Local (read_varint max) := by
  unfold read_varint
  generalize 0 = n
  intro bytes a rest h tail
  induction bytes generalizing n with
  | nil => cases h
  | cons byte bytes ih =>
    rw [List.cons_append, read_varint_from]
    rw [read_varint_from] at h
    dsimp only at h ⊢
    split_ifs at h ⊢
    · cases h
      rfl
    · exact ih _ h

def strip_zeros : ℕ → ℕ → ℕ × ℕ
  | 0, n => (n, 0)
  | e + 1, n =>
    if n % 10 = 0 then
      let (n, k) := strip_zeros e (n / 10)
      (n, k + 1)
    else (n, 0)

def compress_amount (n : ℕ) : ℕ :=
  if n = 0 then 0
  else
    let (n, e) := strip_zeros 9 n
    if e < 9 then 1 + (n / 10 * 9 + n % 10 - 1) * 10 + e else 1 + (n - 1) * 10 + 9

def wrapping_scale : ℕ → ℕ → ℕ
  | 0, n => n
  | e + 1, n => wrapping_scale e (n * 10 % 2 ^ 64)

def decompress_amount (x : ℕ) : ℕ :=
  if x = 0 then 0
  else
    let x := x - 1
    let e := x % 10
    let x := x / 10
    wrapping_scale e (if e < 9 then x / 9 * 10 + (x % 9 + 1) else x + 1)

theorem strip_zeros_spec {e : ℕ} (hn : n ≠ 0) : ∃ m k, strip_zeros e n = (m, k) ∧ k ≤ e ∧ n = m * 10 ^ k ∧
    m ≠ 0 ∧ (k < e → m % 10 ≠ 0) := by
  induction e generalizing n with
  | zero => exact ⟨n, 0, rfl, le_refl _, by simp, hn, by simp⟩
  | succ e ih =>
    rw [strip_zeros]
    split
    · obtain ⟨m, k, hs, hk, hv, hm, hz⟩ := ih (n := n / 10) (by omega)
      refine ⟨m, k + 1, by rw [hs], by omega, ?_, hm, fun h => hz (by omega)⟩
      rw [pow_succ, ← mul_assoc, ← hv]
      omega
    · exact ⟨n, 0, rfl, by omega, by simp, hn, fun _ => by assumption⟩

theorem wrapping_scale_eq {e : ℕ} (h : n * 10 ^ e < 2 ^ 64) : wrapping_scale e n = n * 10 ^ e := by
  induction e generalizing n with
  | zero => simp [wrapping_scale]
  | succ e ih =>
    rw [pow_succ', ← mul_assoc] at h
    have hle : n * 10 ≤ n * 10 * 10 ^ e := Nat.le_mul_of_pos_right _ (by positivity)
    rw [wrapping_scale, Nat.mod_eq_of_lt (by omega), ih h, pow_succ', ← mul_assoc]

theorem decompress_compress_amount (h : n < 2 ^ 64) : decompress_amount (compress_amount n) = n := by
  unfold compress_amount
  split
  · rename_i hz
    rw [hz]
    rfl
  · rename_i hz
    obtain ⟨m, k, hs, hk, hv, hm, hd⟩ := strip_zeros_spec (e := 9) hz
    rw [hs]
    dsimp only
    rw [hv] at h
    unfold decompress_amount
    split
    · rename_i hlt
      have he : (1 + (m / 10 * 9 + m % 10 - 1) * 10 + k - 1) % 10 = k := by omega
      have hx : (1 + (m / 10 * 9 + m % 10 - 1) * 10 + k - 1) / 10 = m / 10 * 9 + (m % 10 - 1) := by omega
      have hq : (m / 10 * 9 + (m % 10 - 1)) / 9 * 10 + ((m / 10 * 9 + (m % 10 - 1)) % 9 + 1) = m := by omega
      rw [if_neg (by omega)]
      dsimp only
      rw [he, hx, if_pos hlt, hq, wrapping_scale_eq h, hv]
    · have hnine : k = 9 := by omega
      subst hnine
      have he : (1 + (m - 1) * 10 + 9 - 1) % 10 = 9 := by omega
      have hx : (1 + (m - 1) * 10 + 9 - 1) / 10 + 1 = m := by omega
      rw [if_neg (by omega)]
      dsimp only
      rw [he, if_neg (by omega), hx, wrapping_scale_eq h, hv]

theorem compress_amount_le (n : ℕ) : compress_amount n ≤ 9 * n + 10 := by
  unfold compress_amount
  split
  · omega
  rename_i hz
  obtain ⟨m, k, hs, hk, hv, hm, -⟩ := strip_zeros_spec (e := 9) hz
  have hle : m ≤ n := hv ▸ Nat.le_mul_of_pos_right _ (by positivity)
  rw [hs]
  dsimp only
  split
  · omega
  have hnine : k = 9 := by omega
  have hten : m * 10 ≤ n := by
    rw [hv, hnine]
    exact Nat.mul_le_mul_left _ (by norm_num)
  omega

inductive Template where
  | PubKeyHash (hash : List UInt8)
  | ScriptHash (hash : List UInt8)
  | PubKey (key : List UInt8)
  | Other

def is_valid_pubkey (key : List UInt8) : Bool :=
  (key.length == 33 && (key[0]? == some 2 || key[0]? == some 3)) || (key.length == 65 && key[0]? == some 4)

/-- `classify`, as far as coin records read it: a witness program or an anchor starts with none of these bytes. -/
def template (script : Script) : Template :=
  let n := script.length
  if n == 25 && script.take 3 == [0x76, 0xa9, 0x14] && script.drop 23 == [0x88, 0xac] then
    .PubKeyHash ((script.drop 3).take 20)
  else if is_p2sh script then .ScriptHash ((script.drop 2).take 20)
  else if ((n == 35 && script[0]? == some 33) || (n == 67 && script[0]? == some 65))
      && script.getLast? == some 0xac && is_valid_pubkey ((script.drop 1).take (n - 2)) then
    .PubKey ((script.drop 1).take (n - 2))
  else .Other

def Template.Of (script : Script) : Template → Prop
  | .PubKeyHash hash => script = [0x76, 0xa9, 0x14] ++ hash ++ [0x88, 0xac] ∧ hash.length = 20
  | .ScriptHash hash => script = [0xa9, 0x14] ++ hash ++ [0x87] ∧ hash.length = 20
  | .PubKey key => script = UInt8.ofNat key.length :: key ++ [0xac] ∧ (key.length = 33 ∨ key.length = 65)
  | .Other => True

variable (script : Script) {key : List UInt8} {prefix_ : UInt8}

theorem template_of : (template script).Of script := by
  unfold template
  dsimp only
  split_ifs with h₁ h₂ h₃
  · simp only [Bool.and_eq_true, beq_iff_eq] at h₁
    obtain ⟨⟨hlen, hhead⟩, htail⟩ := h₁
    refine ⟨?_, by simp; omega⟩
    have hsplit := List.take_append_drop 20 (script.drop 3)
    rw [List.drop_drop, htail] at hsplit
    rw [List.append_assoc, hsplit, ← hhead, List.take_append_drop]
  · simp only [is_p2sh, Bool.and_eq_true, beq_iff_eq] at h₂
    obtain ⟨⟨⟨hlen, h0⟩, h1⟩, h22⟩ := h₂
    refine ⟨?_, by simp; omega⟩
    have hsplit := List.take_append_drop 20 (script.drop 2)
    have htail : (script.drop 2).drop 20 = [0x87] := by
      rw [List.drop_drop, List.drop_eq_getElem_cons (by omega), List.drop_of_length_le (by omega)]
      rw [List.getElem?_eq_some_iff] at h22
      rw [h22.2]
    have hhead : script.take 2 = [0xa9, 0x14] := by
      rw [List.getElem?_eq_some_iff] at h0 h1
      match script, hlen with
      | a :: b :: rest, _ =>
        simp only [List.getElem_cons_zero, List.getElem_cons_succ] at h0 h1
        simp [h0.2, h1.2]
    rw [htail] at hsplit
    rw [List.append_assoc, hsplit, ← hhead, List.take_append_drop]
  · simp only [Bool.and_eq_true, Bool.or_eq_true, beq_iff_eq] at h₃
    obtain ⟨⟨hhead, hlast⟩, -⟩ := h₃
    have hlen : ((script.drop 1).take (script.length - 2)).length = script.length - 2 := by simp; omega
    refine ⟨?_, by rw [hlen]; omega⟩
    have hfirst : script[0]? = some (UInt8.ofNat (script.length - 2)) := by
      rcases hhead with ⟨hn, h⟩ | ⟨hn, h⟩ <;> rw [h, hn] <;> rfl
    have hne : script ≠ [] := fun he => by rw [he] at hfirst; cases hfirst
    obtain ⟨first, rest, rfl⟩ := List.exists_cons_of_ne_nil hne
    rw [List.getElem?_cons_zero, Option.some.injEq] at hfirst
    have hrest : rest ≠ [] := fun he => by rw [he] at hhead; simp at hhead
    rw [hlen, ← hfirst, List.drop_succ_cons, List.drop_zero, List.cons_append, List.cons_inj_right,
      show (first :: rest).length - 2 = rest.length - 1 by simp, ← List.dropLast_eq_take]
    rw [List.getLast?_cons_of_ne_nil hrest, List.getLast?_eq_some_getLast hrest, Option.some.injEq] at hlast
    rw [← hlast, List.dropLast_append_getLast]
  · trivial

theorem compressed_key (hlen : key.length = 33) (h : key[0]? = some prefix_) :
    ∃ x, key = prefix_ :: x ∧ x.length = 32 ∧ (key.drop 1).take 32 = x := by
  match key, hlen with
  | first :: x, hlen =>
    have hx : x.length = 32 := by simpa using hlen
    rw [List.getElem?_cons_zero, Option.some.injEq] at h
    exact ⟨x, by rw [h], hx, by rw [List.drop_succ_cons, List.drop_zero, List.take_of_length_le (by omega)]⟩

theorem uncompressed_key (hlen : key.length = 65) (h : key[0]? = some prefix_) :
    ∃ x y, key = prefix_ :: x ++ y ∧ x.length = 32 ∧ y.length = 32 ∧ (key.drop 1).take 32 = x ∧
      key.getD 64 0 = y.getD 31 0 := by
  match key, hlen with
  | first :: rest, hlen =>
    have hr : rest.length = 64 := by simpa using hlen
    rw [List.getElem?_cons_zero, Option.some.injEq] at h
    refine ⟨rest.take 32, rest.drop 32, by rw [h, List.cons_append, List.take_append_drop], by simp [hr],
      by simp [hr],
      by simp, ?_⟩
    rw [List.getD_eq_getElem?_getD, List.getD_eq_getElem?_getD, List.getElem?_drop, List.getElem?_cons_succ]

variable [PublicKeys]

def compress_script (script : Script) : ℕ × List UInt8 :=
  match template script with
  | .PubKeyHash hash => (0, hash)
  | .ScriptHash hash => (1, hash)
  | .PubKey key =>
    if key.length = 33 ∧ (key[0]? = some 2 ∨ key[0]? = some 3) then ((key.getD 0 0).toNat, (key.drop 1).take 32)
    else if key.length = 65 ∧ key[0]? = some 4 ∧ PublicKeys.is_point key = true then
      (4 + (key.getD 64 0).toNat % 2, (key.drop 1).take 32)
    else (script.length + 6, script)
  | .Other => (script.length + 6, script)

def decompress_script (size_id : ℕ) : SliceReader Script :=
  match size_id with
  | 0 => do
    let hash ← take 20
    pure ([0x76, 0xa9, 0x14] ++ hash ++ [0x88, 0xac])
  | 1 => do
    let hash ← take 20
    pure ([0xa9, 0x14] ++ hash ++ [0x87])
  | 2 => do
    let x ← take 32
    pure ([33, 2] ++ x ++ [0xac])
  | 3 => do
    let x ← take 32
    pure ([33, 3] ++ x ++ [0xac])
  | 4 => do
    let x ← take 32
    pure (match PublicKeys.from_x_only x false with
      | some key => 65 :: key ++ [0xac]
      | none => [])
  | 5 => do
    let x ← take 32
    pure (match PublicKeys.from_x_only x true with
      | some key => 65 :: key ++ [0xac]
      | none => [])
  | n + 6 => take n

theorem decompress_compress_script (rest : List UInt8) :
    decompress_script (compress_script script).1 ((compress_script script).2 ++ rest) = some (script, rest) := by
  have raw : decompress_script (script.length + 6) (script ++ rest) = some (script, rest) := take_append script rest
  have hof := template_of script
  unfold compress_script
  split
  · rename_i hash ht
    rw [ht] at hof
    rw [hof.1, decompress_script, bind_some (hof.2 ▸ take_append hash rest)]
    rfl
  · rename_i hash ht
    rw [ht] at hof
    rw [hof.1, decompress_script, bind_some (hof.2 ▸ take_append hash rest)]
    rfl
  · rename_i key ht
    rw [ht] at hof
    obtain ⟨hscript, -⟩ := hof
    split_ifs with h33 h65
    · obtain ⟨hlen, hprefix⟩ := h33
      rw [hlen] at hscript
      rcases hprefix with hprefix | hprefix
      all_goals
        obtain ⟨x, rfl, hx, hdrop⟩ := compressed_key hlen hprefix
        rw [hdrop, hscript, List.getD_cons_zero]
        have htake : take 32 (x ++ rest) = some (x, rest) := hx ▸ take_append x rest
      · exact bind_some htake
      · exact bind_some htake
    · obtain ⟨hlen, hprefix, hpoint⟩ := h65
      rw [hlen] at hscript
      obtain ⟨x, y, rfl, hx, hy, hdrop, hparity⟩ := uncompressed_key hlen hprefix
      have htake : take 32 (x ++ rest) = some (x, rest) := hx ▸ take_append x rest
      have hkey := PublicKeys.from_x_only_of_point x y hx hy hpoint
      rw [hdrop, hparity, hscript]
      rcases Nat.mod_two_eq_zero_or_one (y.getD 31 0).toNat with hy | hy
      all_goals
        rw [hy] at hkey ⊢
        rw [decompress_script, bind_some htake]
      · rw [show (0 == 1) = false from rfl] at hkey
        rw [hkey]
        rfl
      · rw [show (1 == 1) = true from rfl] at hkey
        rw [hkey]
        rfl
    · exact raw
  · exact raw

theorem compress_script_id :
    (compress_script script).1 ≤ 5 ∨ (compress_script script).1 = script.length + 6 := by
  unfold compress_script
  split
  · simp
  · simp
  · split_ifs with h33 h65
    · left
      obtain ⟨-, h | h⟩ := h33 <;> simp [List.getD_eq_getElem?_getD, h]
    · left
      omega
    · simp
  · simp

theorem length_decompress_script {size_id : ℕ} {script : Script}
    (h : decompress_script size_id bytes = some (script, rest)) : script.length ≤ max 67 (size_id - 6) := by
  have htake : ∀ {n : ℕ} {taken after : List UInt8}, take n bytes = some (taken, after) → taken.length = n := by
    intro n taken after ht
    unfold take at ht
    split at ht
    · cases ht
    · cases ht
      simp
      omega
  unfold decompress_script at h
  split at h
  iterate 4
    obtain ⟨taken, after, ht, he⟩ := bind_eq_some.mp h
    cases he
    simp [htake ht]
  iterate 2
    obtain ⟨taken, after, ht, he⟩ := bind_eq_some.mp h
    cases he
    split
    · rename_i hkey
      simp [PublicKeys.length_from_x_only _ _ _ hkey]
    · simp
  exact le_max_of_le_right (htake h).le

theorem decompress_script_local (size_id : ℕ) : Local (decompress_script size_id) := by
  unfold decompress_script
  split
  iterate 6 exact (take_local _).bind fun _ => Local.pure _
  exact take_local _

def encode_coin (coin : Coin) : List UInt8 :=
  let (size_id, payload) := compress_script coin.out.script_pubkey
  write_varint (coin.height * 2 + coin.coinbase.toNat) ++ write_varint (compress_amount coin.out.value.toNat)
    ++ write_varint size_id ++ payload

def U32_MAX : ℕ := 2 ^ 32 - 1

def U64_MAX : ℕ := 2 ^ 64 - 1

def decode_coin_compact : SliceReader Coin := do
  let code ← read_varint U32_MAX
  let amount ← read_varint U64_MAX
  let size_id ← read_varint U32_MAX
  let script ← decompress_script size_id
  pure ⟨⟨(BitVec.ofNat 64 (decompress_amount amount)).toInt, script⟩, code / 2, code % 2 == 1⟩

def decode_coin (bytes : List UInt8) : Option Coin := (decode_coin_compact bytes).map Prod.fst

theorem decode_coin_compact_local : Local decode_coin_compact :=
  (read_varint_local _).bind fun _ => (read_varint_local _).bind fun _ => (read_varint_local _).bind fun _ =>
    (decompress_script_local _).bind fun _ => Local.pure _

/-- The reader's bounds: `code` and the size word are `u32`s on the wire. -/
def Storable (coin : Coin) : Prop :=
  coin.height * 2 + coin.coinbase.toNat ≤ U32_MAX ∧ (compress_script coin.out.script_pubkey).1 ≤ U32_MAX

omit [PublicKeys] in
theorem amount_fits {value : ℤ} (h : money_range value = true) : compress_amount value.toNat ≤ U64_MAX ∧
    (BitVec.ofNat 64 (decompress_amount (compress_amount value.toNat))).toInt = value := by
  rw [money_range_iff, MAX_MONEY] at h
  have hle := compress_amount_le value.toNat
  refine ⟨by unfold U64_MAX; omega, ?_⟩
  rw [decompress_compress_amount (by omega), BitVec.toInt_eq_toNat_of_lt (by simp; omega), BitVec.toNat_ofNat,
    Nat.mod_eq_of_lt (by omega)]
  omega

theorem decode_encode_coin {coin : Coin} (hv : money_range coin.out.value = true) (hs : Storable coin)
    (rest : List UInt8) : decode_coin_compact (encode_coin coin ++ rest) = some (coin, rest) := by
  obtain ⟨hcode, hsize⟩ := hs
  obtain ⟨hamount, hvalue⟩ := amount_fits hv
  have hcode' : coin.height * 2 + coin.coinbase.toNat < 2 ^ 64 := by unfold U32_MAX at hcode; omega
  have hsize' : (compress_script coin.out.script_pubkey).1 < 2 ^ 64 := by unfold U32_MAX at hsize; omega
  have hbit := Bool.toNat_le coin.coinbase
  rw [encode_coin]
  rw [List.append_assoc, List.append_assoc, List.append_assoc, decode_coin_compact,
    bind_some (read_write_varint _ hcode' hcode),
      bind_some (read_write_varint _ (by unfold U64_MAX at hamount; omega) hamount),
    bind_some (read_write_varint _ hsize' hsize), bind_some (decompress_compress_script _ _)]
  have hheight : (coin.height * 2 + coin.coinbase.toNat) / 2 = coin.height := by omega
  have hflag : ((coin.height * 2 + coin.coinbase.toNat) % 2 == 1) = coin.coinbase := by
    cases coin.coinbase
    · simp
    · simp [Nat.add_mod]
  rw [hvalue, hheight, hflag]
  rfl

theorem storable_of_decode {coin : Coin} (h : decode_coin_compact bytes = some (coin, rest)) : Storable coin := by
  unfold decode_coin_compact at h
  obtain ⟨code, bytes₁, hcode, h⟩ := bind_eq_some.mp h
  obtain ⟨amount, bytes₂, -, h⟩ := bind_eq_some.mp h
  obtain ⟨size_id, bytes₃, hsize, h⟩ := bind_eq_some.mp h
  obtain ⟨script, bytes₄, hscript, h⟩ := bind_eq_some.mp h
  cases h
  have hcode' := (read_varint_le hcode).2
  have hsize' := (read_varint_le hsize).2
  have hlength := length_decompress_script hscript
  constructor
  · dsimp only
    have hflag : (code % 2 == 1).toNat = code % 2 := by
      rcases Nat.mod_two_eq_zero_or_one code with hm | hm <;> simp [hm]
    unfold U32_MAX at hcode' ⊢
    omega
  · unfold U32_MAX at hsize' ⊢
    rcases compress_script_id script with hid | hid
    · exact hid.trans (by norm_num)
    · rw [hid]
      omega

end CoinCodec

end AvilaNode
