import AvilaNode.EpochFiles
import AvilaNode.PoolIndexes

/-! The rollback journal of the live index: a block's before-images as bytes. -/

namespace AvilaNode

open ByteStrings CoinCodec Layers SliceReader

inductive SwiftLiveError where
  | InvalidConfig | BindingMismatch | Corrupt | EventLimit | TipMismatch | MissingOrSpent | ClaimMismatch
  | DuplicateLiveOutput | CheckpointMismatch | NotComplete | EntryLimit | ByteLimit | Overflow | RewindMismatch
deriving DecidableEq, Repr

namespace SwiftLive

def reject (c : Prop) [Decidable c] (e : SwiftLiveError) : Except SwiftLiveError Unit :=
    if c then .error e else .ok ()

variable {rows : List (RunKey × BeforeImage)} {α : Type} {image : BeforeImage} {c : Prop} {row : LiveCoinMeta}
  (e : SwiftLiveError) {body : List UInt8}

theorem reject_bind_ok [Decidable c] {e : SwiftLiveError} {f : Unit → Except SwiftLiveError α} {a : α} :
    (reject c e >>= f) = .ok a ↔ ¬ c ∧ f () = .ok a := by
  unfold reject
  split
  · next h =>
    constructor
    · rintro ⟨⟩
    · exact fun h' => absurd h h'.1
  · next h => exact ⟨fun h' => ⟨h, h'⟩, fun h' => h'.2⟩

variable (f : Unit → Except SwiftLiveError α)

theorem reject_bind_pos [Decidable c] (h : c) :
    (reject c e >>= f) = .error e := by
  rw [reject, if_pos h]
  rfl

theorem reject_bind_neg [Decidable c] (h : ¬ c) : (reject c e >>= f) = f () := by
  rw [reject, if_neg h]
  rfl

def ROW_LEN : ℕ := 5

def UNDO_DOMAIN : List UInt8 :=
    [0x41, 0x76, 0x69, 0x6c, 0x61, 0x20, 0x53, 0x77, 0x69, 0x66, 0x74, 0x4c, 0x69, 0x76, 0x65,
  0x20, 0x75, 0x6e, 0x64, 0x6f, 0x20, 0x76, 0x31, 0]

def MAX_BLOCK_EVENTS : ℕ := 1000000

def MAX_AUDIT_SCRIPT_BYTES : ℕ := 10000

structure LiveCoinMeta where
  height : ℕ
  coinbase : Bool
  live : Bool
deriving DecidableEq, Repr

def encode_row (row : LiveCoinMeta) : List UInt8 := le 4 row.height ++ [UInt8.ofNat row.coinbase.toNat]

def decode_row (bytes : List UInt8) : Option LiveCoinMeta :=
  if bytes.length ≠ ROW_LEN ∨ 1 < bytes.getD 4 0 then none
  else some ⟨value (bytes.take 4), bytes.getD 4 0 != 0, true⟩

structure BeforeImage where
  live : Option (List UInt8)
  survivor : Option (List UInt8)
deriving DecidableEq, Repr

abbrev DecodedJournal :=
  BlockHash × BlockHash × Option (List UInt8) × Option (List UInt8) × List (RunKey × BeforeImage)

def in_order (before : Table RunKey BeforeImage) : List (RunKey × BeforeImage) :=
  (toList before).insertionSort fun a b => a.1.toNat ≤ b.1.toNat

def encode_live : Option (List UInt8) → List UInt8
  | some v => 1 :: v
  | none => 0 :: List.replicate ROW_LEN 0

def encode_survivor : Option (List UInt8) → Except SwiftLiveError (List UInt8)
  | some v => if U32_MAX < v.length then .error .Overflow else .ok (le 4 v.length ++ v)
  | none => .ok (le 4 U32_MAX)

def encode_rows : List (RunKey × BeforeImage) → Except SwiftLiveError (List UInt8)
  | [] => .ok []
  | (key, before) :: rows => do
    let survivor ← encode_survivor before.survivor
    let rest ← encode_rows rows
    pure (RunFile.key_bytes key ++ encode_live before.live ++ survivor ++ rest)

section

variable (sha256 : List UInt8 → Hash256)

def checksum (domain bytes : List UInt8) : List UInt8 := (sha256 (domain ++ bytes)).to_bytes

def encode_journal (previous current : BlockHash) (rows : Table RunKey BeforeImage)
    (audit_before stump_before : Option (List UInt8)) : Except SwiftLiveError (List UInt8) := do
  let count := rows.keys.length
  reject (U32_MAX < count) .Overflow
  let audit_len := (audit_before.getD []).length
  reject (U32_MAX < audit_len) .Overflow
  reject (audit_len ≠ 0 ∧ audit_len ≠ 321) .Corrupt
  let stump_len := (stump_before.getD []).length
  reject (U32_MAX < stump_len) .Overflow
  reject (4096 < stump_len) .Corrupt
  let body ← encode_rows (in_order rows)
  let out := le 4 count ++ (previous.to_bytes ++ (current.to_bytes ++ (le 4 audit_len ++ (le 4 stump_len ++
    (audit_before.getD [] ++ (stump_before.getD [] ++ body))))))
  pure (out ++ checksum sha256 UNDO_DOMAIN out)

end

section

variable [PublicKeys]

def ensure (b : Bool) : SliceReader Unit := fun bytes => if b then some ((), bytes) else none

def read_live (present : UInt8) (raw : List UInt8) : SliceReader (Option (List UInt8)) := fun bytes =>
  if present = 0 ∧ raw.all (· == 0) then some (none, bytes)
  else if present = 1 then (decode_row raw).map fun _ => (some raw, bytes)
  else none

def read_survivor (len : ℕ) : SliceReader (Option (List UInt8)) :=
  if len = U32_MAX then pure none
  else do
    let v ← take len
    pure (some v)

def survivor_reads (v : List UInt8) : Bool :=
  match decode_coin_compact v with
  | some (coin, rest) => rest.isEmpty && money_range coin.out.value
  | none => false

def read_row (last : Option RunKey) : SliceReader (RunKey × BeforeImage) := do
  let key ← take 36
  let key := RunFile.read_key key
  ensure (last.all fun prior => prior.toNat < key.toNat)
  let present ← take 1
  let raw ← take ROW_LEN
  let live ← read_live (present.getD 0 0) raw
  let survivor_len ← take 4
  let survivor ← read_survivor (value survivor_len)
  ensure (survivor.all survivor_reads)
  pure (key, ⟨live, survivor⟩)

def read_rows : ℕ → Option RunKey → SliceReader (List (RunKey × BeforeImage))
  | 0, _ => pure []
  | count + 1, last => do
    let row ← read_row last
    let rows ← read_rows count (some row.1)
    pure (row :: rows)

def hash_at (bytes : List UInt8) (start : ℕ) : BlockHash :=
  BitVec.ofNat 256 (value ((bytes.drop start).take 32).reverse)

def u32_at (bytes : List UInt8) (start : ℕ) : ℕ := value ((bytes.drop start).take 4)

def decode_journal (sha256 : List UInt8 → Hash256) (bytes : List UInt8) : Except SwiftLiveError DecodedJournal := do
  reject (bytes.length < 4 + 64 + 8 + 32) .Corrupt
  let count := u32_at bytes 0
  reject (MAX_BLOCK_EVENTS < count) .Corrupt
  let body_end := bytes.length - 32
  reject (checksum sha256 UNDO_DOMAIN (bytes.take body_end) ≠ bytes.drop body_end) .Corrupt
  let audit_len := u32_at bytes 68
  reject (audit_len ≠ 0 ∧ audit_len ≠ 321) .Corrupt
  let stump_len := u32_at bytes 72
  reject (4096 < stump_len) .Corrupt
  let stump_start := 76 + audit_len
  let cursor := stump_start + stump_len
  reject (body_end < cursor ∨ (body_end - cursor) / 46 < count) .Corrupt
  let audit_before := if audit_len = 0 then none else some ((bytes.drop 76).take audit_len)
  let stump_before := if stump_len = 0 then none else some ((bytes.drop stump_start).take stump_len)
  match read_rows count none (bytes.drop cursor) with
  | some (rows, rest) =>
    if rest.length = 32 then pure (hash_at bytes 4, hash_at bytes 36, audit_before, stump_before, rows)
    else throw .Corrupt
  | none => throw .Corrupt

end

theorem length_encode_row (row : LiveCoinMeta) : (encode_row row).length = ROW_LEN := by
  rw [encode_row, List.length_append, length_le]
  rfl

theorem decode_encode_row (hheight : row.height ≤ U32_MAX) (hlive : row.live = true) :
    decode_row (encode_row row) = some row := by
  obtain ⟨height, coinbase, live⟩ := row
  cases hlive
  have hlast : (encode_row ⟨height, coinbase, true⟩).getD 4 0 = UInt8.ofNat coinbase.toNat := rfl
  have hbyte : ¬ 1 < UInt8.ofNat coinbase.toNat ∧ (UInt8.ofNat coinbase.toNat != 0) = coinbase := by
    cases coinbase <;> decide
  have hvalue : value (le 4 height) = height := value_le (by dsimp only at hheight; unfold U32_MAX at hheight; omega)
  rw [decode_row, length_encode_row, hlast, if_neg (by rw [not_or]; exact ⟨fun h => h rfl, hbyte.1⟩), hbyte.2,
    encode_row,
    List.take_left' (length_le 4 height), hvalue]

theorem length_of_decode_row {bytes : List UInt8} (h : decode_row bytes = some row) :
    bytes.length = ROW_LEN := by
  unfold decode_row at h
  split at h
  · cases h
  · next hn =>
    rw [not_or] at hn
    exact not_not.mp hn.1

theorem ensure_true {b : Bool} (h : b = true) (bytes : List UInt8) : ensure b bytes = some ((), bytes) := by
  rw [ensure, if_pos h]

theorem take_of_length {n : ℕ} {taken : List UInt8} (h : taken.length = n) (rest : List UInt8) :
    take n (taken ++ rest) = some (taken, rest) := h ▸ take_append taken rest

theorem read_live_encode {live : Option (List UInt8)} (h : ∀ v, live = some v → (decode_row v).isSome = true) :
    ∃ present raw, encode_live live = present :: raw ∧ raw.length = ROW_LEN ∧
      ∀ rest, read_live present raw rest = some (live, rest) := by
  cases live with
  | none =>
    refine ⟨0, List.replicate ROW_LEN 0, rfl, List.length_replicate, fun rest => ?_⟩
    rw [read_live, if_pos ⟨rfl, rfl⟩]
  | some v =>
    obtain ⟨row, hrow⟩ := Option.isSome_iff_exists.mp (h v rfl)
    refine ⟨1, v, rfl, length_of_decode_row hrow, fun rest => ?_⟩
    rw [read_live, if_neg (fun hz => absurd hz.1 (by decide)), if_pos rfl, hrow]
    rfl

theorem read_survivor_encode {survivor : Option (List UInt8)} {bytes : List UInt8}
    (h : ∀ v, survivor = some v → v.length < U32_MAX) (he : encode_survivor survivor = .ok bytes) :
    ∃ n body, bytes = le 4 n ++ body ∧ n ≤ U32_MAX ∧
      ∀ rest, read_survivor n (body ++ rest) = some (survivor, rest) := by
  cases survivor with
  | none =>
    cases he
    exact ⟨U32_MAX, [], (List.append_nil _).symm, le_rfl, fun rest => by rw [read_survivor, if_pos rfl]; rfl⟩
  | some v =>
    have hv := h v rfl
    rw [encode_survivor, if_neg (by omega)] at he
    cases he
    refine ⟨v.length, v, rfl, hv.le, fun rest => ?_⟩
    rw [read_survivor, if_neg (by omega), bind_some (take_append v rest)]
    rfl

section

variable [PublicKeys]

structure BeforeImage.Readable (image : BeforeImage) : Prop where
  live : ∀ v, image.live = some v → (decode_row v).isSome = true
  survivor : ∀ v, image.survivor = some v → v.length < U32_MAX ∧ survivor_reads v = true

variable {last : Option RunKey}

theorem read_row_encode {key : RunKey} {survivor : List UInt8}
    (hlast : ∀ prior, last = some prior → prior.toNat < key.toNat) (himage : image.Readable)
    (he : encode_survivor image.survivor = .ok survivor) (rest : List UInt8) :
    read_row last (RunFile.key_bytes key ++ encode_live image.live ++ survivor ++ rest) =
      some ((key, image), rest) := by
  obtain ⟨present, raw, hlive, hraw, hread⟩ := read_live_encode himage.live
  obtain ⟨n, body, rfl, hn, hsurvivor⟩ := read_survivor_encode (fun v hv => (himage.survivor v hv).1) he
  have hordered : (last.all fun prior => decide (prior.toNat < key.toNat)) = true := by
    cases last with
    | none => rfl
    | some prior => exact decide_eq_true (hlast prior rfl)
  have hall : image.survivor.all survivor_reads = true := by
    cases hs : image.survivor with
    | none => rfl
    | some v => exact (himage.survivor v hs).2
  have hvalue : value (le 4 n) = n := value_le (by unfold U32_MAX at hn; omega)
  rw [hlive, List.append_assoc, List.append_assoc, read_row,
    bind_some (take_of_length (RunFile.length_key_bytes key) _),
    RunFile.read_key_bytes, bind_some (ensure_true hordered _), List.cons_append,
    ← List.singleton_append, bind_some (take_of_length (show [present].length = 1 from rfl) _),
      bind_some (take_of_length hraw _), List.getD_cons_zero,
    bind_some (hread _), List.append_assoc, bind_some (take_of_length (length_le 4 n) _), hvalue,
      bind_some (hsurvivor _),
    bind_some (ensure_true hall _)]
  rfl

theorem read_rows_encode (hasc : rows.Pairwise fun a b => a.1.toNat < b.1.toNat)
    (hlast : ∀ prior, last = some prior → ∀ row ∈ rows, prior.toNat < row.1.toNat)
    (hrows : ∀ row ∈ rows, row.2.Readable) (he : encode_rows rows = .ok body) (rest : List UInt8) :
    read_rows rows.length last (body ++ rest) = some (rows, rest) := by
  induction rows generalizing last body with
  | nil =>
    cases he
    rfl
  | cons row rows ih =>
    obtain ⟨key, image⟩ := row
    obtain ⟨survivor, hsurvivor, he⟩ := Mempool.except_bind_ok he
    obtain ⟨tail, htail, he⟩ := Mempool.except_bind_ok he
    cases he
    rw [List.pairwise_cons] at hasc
    have hrow := read_row_encode (fun prior hp => hlast prior hp _ List.mem_cons_self) (hrows _ List.mem_cons_self)
      hsurvivor (tail ++ rest)
    rw [List.append_assoc, List.length_cons, read_rows, bind_some hrow,
      bind_some (ih hasc.2 (fun prior hp r hr => ?_) (fun r hr => hrows r (List.mem_cons_of_mem _ hr)) htail)]
    · rfl
    · cases hp
      exact hasc.1 r hr

end

theorem mem_in_order {before : Table RunKey BeforeImage} {key : RunKey} :
    (key, image) ∈ in_order before ↔ before.lookup key = some image := by
  rw [in_order, List.mem_insertionSort, mem_toList]

theorem length_in_order (before : Table RunKey BeforeImage) : (in_order before).length = before.keys.length := by
  rw [in_order, List.length_insertionSort, keys_eq_toList, List.length_map]

theorem in_order_nodup (before : Table RunKey BeforeImage) : ((in_order before).map Prod.fst).Nodup := by
  have hkeys : before.keys.Nodup := before.nodupKeys
  rw [keys_eq_toList] at hkeys
  exact ((List.perm_insertionSort _ (toList before)).map Prod.fst).nodup_iff.mpr hkeys

theorem in_order_ascending (before : Table RunKey BeforeImage) :
    (in_order before).Pairwise fun a b => a.1.toNat < b.1.toNat := by
  have hle : (in_order before).Pairwise fun a b => a.1.toNat ≤ b.1.toNat := List.pairwise_insertionSort _ _
  refine (hle.and (List.pairwise_map.mp (in_order_nodup before))).imp fun {a b} h => ?_
  exact lt_of_le_of_ne h.1 fun heq => h.2 (BitVec.eq_of_toNat_eq heq)

theorem slice_of {bytes head part rest : List UInt8} {n m : ℕ} (h : bytes = head ++ (part ++ rest))
    (hn : head.length = n)
    (hm : part.length = m) : (bytes.drop n).take m = part := by
  rw [h, List.drop_left' hn, List.take_left' hm]

section

variable {sha256 : List UInt8 → Hash256} {previous current : BlockHash} {before : Table RunKey BeforeImage}
  {audit_before stump_before : Option (List UInt8)} {bytes : List UInt8}

theorem encode_journal_fields
    (he : encode_journal sha256 previous current before audit_before stump_before = .ok bytes) :
    ∃ audit stump body, audit_before.getD [] = audit ∧ stump_before.getD [] = stump ∧
      encode_rows (in_order before) = .ok body ∧ before.keys.length ≤ U32_MAX ∧
      (audit.length = 0 ∨ audit.length = 321) ∧ stump.length ≤ 4096 ∧
      let out := le 4 before.keys.length ++ (previous.to_bytes ++ (current.to_bytes ++ (le 4 audit.length ++
        (le 4 stump.length ++ (audit ++ (stump ++ body))))))
      bytes = out ++ checksum sha256 UNDO_DOMAIN out := by
  obtain ⟨hcount, he⟩ := reject_bind_ok.mp he
  obtain ⟨-, he⟩ := reject_bind_ok.mp he
  obtain ⟨haudit, he⟩ := reject_bind_ok.mp he
  obtain ⟨-, he⟩ := reject_bind_ok.mp he
  obtain ⟨hstump, he⟩ := reject_bind_ok.mp he
  obtain ⟨body, hbody, he⟩ := Mempool.except_bind_ok he
  refine ⟨_, _, body, rfl, rfl, hbody, not_lt.mp hcount, by tauto, not_lt.mp hstump, ?_⟩
  exact (Except.ok.inj he).symm

variable {head rest : List UInt8}

theorem u32_at_of {n start : ℕ} (h : bytes = head ++ (le 4 n ++ rest)) (hstart : head.length = start)
    (hn : n ≤ U32_MAX) : u32_at bytes start = n := by
  rw [u32_at, slice_of h hstart (length_le 4 n), value_le (by unfold U32_MAX at hn; omega)]

theorem hash_at_of {hash : BlockHash} {start : ℕ} (h : bytes = head ++ (hash.to_bytes ++ rest))
    (hstart : head.length = start) : hash_at bytes start = hash := by
  rw [hash_at, slice_of h hstart (Hash256.length_to_bytes hash), Hash256.to_bytes_eq, List.reverse_reverse,
    value_le (by simpa using hash.isLt), BitVec.ofNat_toNat, BitVec.setWidth_eq]

variable [PublicKeys]

theorem decode_too_many (he : encode_journal sha256 previous current before audit_before stump_before = .ok bytes)
    (hmany : MAX_BLOCK_EVENTS < before.keys.length) : decode_journal sha256 bytes = .error .Corrupt := by
  obtain ⟨audit, stump, body, -, -, -, hcount, -, -, hbytes⟩ := encode_journal_fields he
  have hfield : u32_at bytes 0 = before.keys.length :=
    u32_at_of (by rw [hbytes, List.append_assoc]; exact (List.nil_append _).symm) rfl hcount
  unfold decode_journal
  by_cases hlen : bytes.length < 4 + 64 + 8 + 32
  · exact reject_bind_pos _ _ hlen
  · rw [reject_bind_neg _ _ hlen, hfield]
    exact reject_bind_pos _ _ hmany

theorem length_encode_rows (hrows : ∀ row ∈ rows, row.2.Readable) (he : encode_rows rows = .ok body) :
    46 * rows.length ≤ body.length := by
  induction rows generalizing body with
  | nil => exact Nat.zero_le _
  | cons row rows ih =>
    obtain ⟨survivor, hsurvivor, he⟩ := Mempool.except_bind_ok he
    obtain ⟨tail, htail, he⟩ := Mempool.except_bind_ok he
    cases he
    have himage := hrows row List.mem_cons_self
    obtain ⟨present, raw, hlive, hraw, -⟩ := read_live_encode himage.live
    obtain ⟨n, value, rfl, -, -⟩ := read_survivor_encode (fun v hv => (himage.survivor v hv).1) hsurvivor
    have hrest := ih (fun r hr => hrows r (List.mem_cons_of_mem _ hr)) htail
    rw [ROW_LEN] at hraw
    simp only [List.length_append, List.length_cons, RunFile.length_key_bytes, hlive, hraw, length_le]
    omega

structure Placed (bytes : List UInt8) (count : ℕ) (previous current : BlockHash) (audit stump body sum : List UInt8) :
    Prop where
  count_at : u32_at bytes 0 = count
  previous_at : hash_at bytes 4 = previous
  current_at : hash_at bytes 36 = current
  audit_len_at : u32_at bytes 68 = audit.length
  stump_len_at : u32_at bytes 72 = stump.length
  audit_at : (bytes.drop 76).take audit.length = audit
  stump_at : (bytes.drop (76 + audit.length)).take stump.length = stump
  body_at : bytes.drop (76 + audit.length + stump.length) = body ++ sum

omit [PublicKeys] in
theorem placed {count : ℕ} {audit stump body sum : List UInt8} (hcount : count ≤ U32_MAX)
    (haudit : audit.length ≤ U32_MAX) (hstump : stump.length ≤ U32_MAX)
    (hbytes : bytes = le 4 count ++
      (previous.to_bytes ++ (current.to_bytes ++ (le 4 audit.length ++ (le 4 stump.length ++
      (audit ++ (stump ++ body)))))) ++ sum) : Placed bytes count previous current audit stump body sum := by
  have hprevious : bytes =
    le 4 count ++ (previous.to_bytes ++ (current.to_bytes ++ le 4 audit.length ++ le 4 stump.length ++
      audit ++ stump ++ body ++ sum)) := by rw [hbytes]; simp only [List.append_assoc]
  have hcurrent : bytes =
    (le 4 count ++ previous.to_bytes) ++ (current.to_bytes ++ (le 4 audit.length ++ le 4 stump.length ++
      audit ++ stump ++ body ++ sum)) := by rw [hbytes]; simp only [List.append_assoc]
  have haudit_len : bytes = (le 4 count ++ previous.to_bytes ++ current.to_bytes) ++ (le 4 audit.length ++
      (le 4 stump.length ++ audit ++ stump ++ body ++ sum)) := by rw [hbytes]; simp only [List.append_assoc]
  have hstump_len : bytes = (le 4 count ++ previous.to_bytes ++ current.to_bytes ++ le 4 audit.length) ++
      (le 4 stump.length ++ (audit ++ stump ++ body ++ sum)) := by rw [hbytes]; simp only [List.append_assoc]
  have haudit_bytes : bytes = (le 4 count ++ previous.to_bytes ++ current.to_bytes ++ le 4 audit.length ++
      le 4 stump.length) ++ (audit ++ (stump ++ body ++ sum)) := by rw [hbytes]; simp only [List.append_assoc]
  have hstump_bytes : bytes = (le 4 count ++ previous.to_bytes ++ current.to_bytes ++ le 4 audit.length ++
      le 4 stump.length ++ audit) ++ (stump ++ (body ++ sum)) := by rw [hbytes]; simp only [List.append_assoc]
  have hbody : bytes = (le 4 count ++ previous.to_bytes ++ current.to_bytes ++ le 4 audit.length ++
      le 4 stump.length ++ audit ++ stump) ++ (body ++ sum) := by rw [hbytes]; simp only [List.append_assoc]
  have hfirst : bytes = [] ++ (le 4 count ++ (previous.to_bytes ++ (current.to_bytes ++ (le 4 audit.length ++
      (le 4 stump.length ++ (audit ++ (stump ++ body))))) ++ sum)) := by rw [hbytes]; simp only [List.append_assoc,
        List.nil_append]
  constructor
  · exact u32_at_of hfirst rfl hcount
  · exact hash_at_of hprevious (length_le 4 _)
  · exact hash_at_of hcurrent (by simp)
  · exact u32_at_of haudit_len (by simp) haudit
  · exact u32_at_of hstump_len (by simp) hstump
  · exact slice_of haudit_bytes (by simp) rfl
  · exact slice_of hstump_bytes (by simp; omega) rfl
  · rw [hbody, List.drop_left']
    simp
    omega

omit [PublicKeys] in
theorem state_before {state : Option (List UInt8)} (h : state ≠ some []) :
    (if (state.getD []).length = 0 then none else some (state.getD [])) = state := by
  cases state with
  | none => rfl
  | some v =>
    cases v with
    | nil => exact absurd rfl h
    | cons => rfl

theorem decode_encode_journal
    (he : encode_journal sha256 previous current before audit_before stump_before = .ok bytes)
    (hfew : before.keys.length ≤ MAX_BLOCK_EVENTS) (haudit : audit_before ≠ some []) (hstump : stump_before ≠ some [])
    (hrows : ∀ key image, before.lookup key = some image → image.Readable) :
    decode_journal sha256 bytes = .ok (previous, current, audit_before, stump_before, in_order before) := by
  obtain ⟨audit, stump, body, rfl, rfl, hbody, hcount, hal, hsl, hbytes⟩ := encode_journal_fields he
  have hreadable : ∀ row ∈ in_order before, row.2.Readable := fun row hrow => hrows row.1 row.2 (mem_in_order.mp hrow)
  have hroom := length_encode_rows hreadable hbody
  have hread := read_rows_encode (in_order_ascending before)
    (fun prior (h : none = some prior) => nomatch h) hreadable hbody
  rw [length_in_order] at hroom hread
  have hsum : ∀ out, (checksum sha256 UNDO_DOMAIN out).length = 32 := fun out => Hash256.length_to_bytes _
  have hlen : bytes.length = 108 + (audit_before.getD []).length + (stump_before.getD []).length + body.length := by
    rw [hbytes]
    simp only [List.length_append, length_le, Hash256.length_to_bytes, hsum]
    omega
  obtain ⟨out, hout⟩ : ∃ out, out = le 4 before.keys.length ++ (previous.to_bytes ++ (current.to_bytes ++
      (le 4 (audit_before.getD []).length ++ (le 4 (stump_before.getD []).length ++
        (audit_before.getD [] ++ (stump_before.getD [] ++ body)))))) := ⟨_, rfl⟩
  rw [← hout] at hbytes
  have hend : bytes.length - 32 = out.length := by rw [hbytes, List.length_append, hsum]; omega
  have htake : bytes.take (bytes.length - 32) = out := by rw [hend, hbytes, List.take_left]
  have hdrop : bytes.drop (bytes.length - 32) =
    checksum sha256 UNDO_DOMAIN out := by rw [hend, hbytes, List.drop_left]
  have hplaced : Placed bytes before.keys.length previous current (audit_before.getD []) (stump_before.getD []) body
      (checksum sha256 UNDO_DOMAIN out) :=
    placed hcount (by unfold U32_MAX; omega) (by unfold U32_MAX; omega) (by rw [← hout]; exact hbytes)
  unfold decode_journal
  dsimp only
  rw [reject_bind_neg _ _ (by omega), hplaced.count_at, reject_bind_neg _ _ (by omega), htake, hdrop,
    reject_bind_neg _ _ (not_not.mpr rfl), hplaced.audit_len_at, reject_bind_neg _ _ (by omega), hplaced.stump_len_at,
    reject_bind_neg _ _ (by omega), reject_bind_neg _ _ (by omega), hplaced.body_at, hread, hplaced.audit_at,
    hplaced.stump_at, state_before haudit, state_before hstump, hplaced.previous_at, hplaced.current_at]
  dsimp only
  rw [if_pos (hsum _)]
  rfl

end

end SwiftLive

end AvilaNode
