import AvilaNode.CoinCodec
import AvilaNode.TransactionCodec
import AvilaNode.WindowReaders

/-! The records of a snapshot file: groups of coins under one txid, and what is hashed of them. -/

namespace AvilaNode.Snapshot

open ByteStrings ByteReader

def HEADER_LEN : ℕ := 51

def MAX_SCRIPT_SIZE : ℕ := 10000

def STRICT_MAX_OUTPUTS : ℕ := 1 <<< 17

/-- `Short`: the window ends within a record. -/
inductive PErr where
  | Short
  | Bad (message : String)
deriving DecidableEq, Repr

abbrev Reader := ByteReader PErr

def bad {α : Type} (message : String) : Reader α := fun _ => .error (.Bad message)

def take (n : ℕ) : Reader (List UInt8) := fun b => if n ≤ b.length then .ok (b.take n, b.drop n) else .error .Short

def byte : Reader UInt8
  | [] => .error .Short
  | c :: b => .ok (c, b)

def canonical (width least : ℕ) : Reader ℕ := do
  let s ← take width
  if value s < least then bad "non-canonical CompactSize" else pure (value s)

def wide (tag : UInt8) : Reader ℕ :=
  if tag = 253 then canonical 2 253 else if tag = 254 then canonical 4 0x10000 else canonical 8 0x100000000

def compact : Reader ℕ := do
  let tag ← byte
  if tag ≤ 252 then pure tag.toNat
  else do
    let v ← wide tag
    if MAX_SIZE < v then bad "CompactSize above MAX_SIZE" else pure v

def varint_loop (max : ℕ) : ℕ → Reader ℕ
  | _, [] => .error .Short
  | n, c :: b =>
    if max >>> 7 < n then .error (.Bad "VARINT too large")
    else
      let n := n <<< 7 ||| (c &&& 0x7f).toNat
      if c &&& 0x80 = 0 then .ok (n, b)
      else if n = max then .error (.Bad "VARINT too large")
      else varint_loop max (n + 1) b

def varint (max : ℕ) : Reader ℕ := varint_loop max 0

def scale : ℕ → ℕ → ℕ
  | 0, n => n
  | e + 1, n => scale e (n * 10 % 2 ^ 64)

def decompress_amount (x : ℕ) : ℕ :=
  if x = 0 then 0
  else
    let x := x - 1
    let e := x % 10
    let x := x / 10
    scale e (if e < 9 then (x / 9 * 10 % 2 ^ 64 + (x % 9 + 1)) % 2 ^ 64 else (x + 1) % 2 ^ 64)

section

variable [PublicKeys]

def p2pk_uncompressed (id : ℕ) (x : List UInt8) : List UInt8 :=
  match PublicKeys.from_x_only x (id ≠ 4) with
  | some key => [67, 65] ++ key ++ [0xac]
  | none => [0]

def coin_script (strict : Bool) (size_id : ℕ) : Reader (List UInt8) :=
  if size_id = 0 then do
    let h ← take 20
    pure ([25, 0x76, 0xa9, 0x14] ++ h ++ [0x88, 0xac])
  else if size_id = 1 then do
    let h ← take 20
    pure ([23, 0xa9, 0x14] ++ h ++ [0x87])
  else if size_id = 2 ∨ size_id = 3 then do
    let x ← take 32
    pure ([35, 33, UInt8.ofNat size_id] ++ x ++ [0xac])
  else if size_id = 4 ∨ size_id = 5 then do
    let x ← take 32
    pure (p2pk_uncompressed size_id x)
  else
    let len := size_id - 6
    if strict ∧ MAX_SCRIPT_SIZE < len then bad "script above MAX_SCRIPT_SIZE"
    else do
      let raw ← take len
      pure (if MAX_SCRIPT_SIZE < len then [1, 0x6a] else write_compact_size len ++ raw)

def coin (strict : Bool) (base_height : ℕ) : Reader (ℕ × List UInt8) := do
  let code ← varint (2 ^ 32 - 1)
  let amount ← varint (2 ^ 64 - 1)
  let size_id ← varint (2 ^ 32 - 1)
  let value := (BitVec.ofNat 64 (decompress_amount amount)).toInt
  let script ← coin_script strict size_id
  if base_height < code >>> 1 then bad "coin height above the snapshot base"
  else if value < 0 ∨ MAX_MONEY < value then bad "bad tx out value"
  else pure (code, le 4 code ++ write_i64 value ++ script)

def group_coins (strict same_code : Bool) (base_height : ℕ) (txid : List UInt8) :
    ℕ → Option ℕ → Option ℕ → Reader (List UInt8)
  | 0, _, _ => pure []
  | n + 1, prev_vout, first_code => do
    let vout ← compact
    if strict ∧ (STRICT_MAX_OUTPUTS ≤ vout ∨ prev_vout.any (vout ≤ ·)) then bad "vouts out of order"
    else do
      let (code, out) ← coin strict base_height
      let first := first_code.getD code
      if strict ∧ same_code ∧ first ≠ code then bad "mixed heights in one txid"
      else do
        let ser ← group_coins strict same_code base_height txid n (some vout) (some first)
        pure (txid ++ le 4 vout ++ out ++ ser)

structure Group where
  txid : List UInt8
  n : ℕ
  ser : List UInt8
deriving DecidableEq, Repr

def group_shaped (strict : Bool) (base_height : ℕ) (same_code : Bool) : Reader Group := do
  let txid ← take 32
  let n ← compact
  if strict ∧ (n = 0 ∨ STRICT_MAX_OUTPUTS < n) then bad "implausible group size"
  else do
    let ser ← group_coins strict same_code base_height txid n none none
    pure ⟨txid, n, ser⟩

def group (base_height : ℕ) : Reader Group := group_shaped false base_height false

end

section Settled

theorem bad_settled {α : Type} (message : String) : Settled PErr.Short (bad message : Reader α) := Settled.error _

theorem take_settled (n : ℕ) : Settled PErr.Short (take n) := by
  constructor
  · intro bytes a rest h
    rw [take] at h
    split_ifs at h with hn
    obtain ⟨rfl, rfl⟩ := Prod.mk.inj (Except.ok.inj h)
    refine ⟨bytes.take n, (List.take_append_drop n bytes).symm, ?_⟩
    intro tail
    have hlen : (bytes.take n).length = n := by rw [List.length_take, Nat.min_eq_left hn]
    rw [take, if_pos (by rw [List.length_append, hlen]; exact Nat.le_add_right _ _), List.take_left' hlen,
      List.drop_left' hlen]
  · intro bytes e h hne
    rw [take] at h
    split_ifs at h
    exact absurd (Except.error.inj h).symm hne

theorem byte_settled : Settled PErr.Short byte := by
  constructor
  · intro bytes a rest h
    cases bytes with
    | nil => cases h
    | cons c bytes =>
      cases h
      exact ⟨[a], rfl, fun tail => rfl⟩
  · intro bytes e h hne
    cases bytes with
    | nil => exact absurd (Except.error.inj h).symm hne
    | cons c bytes => cases h

theorem canonical_settled (width least : ℕ) : Settled PErr.Short (canonical width least) :=
  (take_settled width).bind fun _ => (bad_settled _).ite (Settled.pure _)

theorem compact_settled : Settled PErr.Short compact := by
  refine byte_settled.bind fun tag =>
    (Settled.pure _).ite (Settled.bind ?_ fun v => (bad_settled _).ite (Settled.pure _))
  rw [wide]
  exact (canonical_settled _ _).ite ((canonical_settled _ _).ite (canonical_settled _ _))

theorem varint_loop_settled (max n : ℕ) : Settled PErr.Short (varint_loop max n) := by
  constructor
  · intro bytes a rest h
    induction bytes generalizing n with
    | nil => cases h
    | cons c bytes ih =>
      rw [varint_loop] at h
      dsimp only at h
      split_ifs at h with hbig hlast hmax
      · cases h
        refine ⟨[c], rfl, fun tail => ?_⟩
        rw [List.singleton_append, varint_loop, if_neg hbig, if_pos hlast]
      · obtain ⟨front, rfl, hfront⟩ := ih _ h
        refine ⟨c :: front, rfl, fun tail => ?_⟩
        rw [List.cons_append, varint_loop]
        rw [if_neg hbig, if_neg hlast, if_neg hmax]
        exact hfront tail
  · intro bytes e h hne tail
    induction bytes generalizing n with
    | nil => exact absurd (Except.error.inj h).symm hne
    | cons c bytes ih =>
      rw [varint_loop] at h
      rw [List.cons_append, varint_loop]
      dsimp only at h ⊢
      split_ifs at h ⊢ with hbig hlast hmax
      · exact h
      · exact h
      · exact ih _ h

variable [PublicKeys]

variable (strict : Bool)

theorem coin_script_settled (size_id : ℕ) : Settled PErr.Short (coin_script strict size_id) := by
  refine Settled.ite ((take_settled _).bind fun _ => Settled.pure _) ?_
  refine Settled.ite ((take_settled _).bind fun _ => Settled.pure _) ?_
  refine Settled.ite ((take_settled _).bind fun _ => Settled.pure _) ?_
  refine Settled.ite ((take_settled _).bind fun _ => Settled.pure _) ?_
  exact (bad_settled _).ite ((take_settled _).bind fun _ => Settled.pure _)

variable (base_height : ℕ)

theorem coin_settled : Settled PErr.Short (coin strict base_height) := by
  refine (varint_loop_settled _ _).bind fun _ => (varint_loop_settled _ _).bind fun _ =>
    (varint_loop_settled _ _).bind fun _ => (coin_script_settled _ _).bind fun _ => ?_
  exact (bad_settled _).ite ((bad_settled _).ite (Settled.pure _))

theorem group_coins_settled (strict same_code : Bool) (base_height : ℕ) (txid : List UInt8) (n : ℕ)
    (prev_vout first_code : Option ℕ) :
    Settled PErr.Short (group_coins strict same_code base_height txid n prev_vout first_code) := by
  induction n generalizing prev_vout first_code with
  | zero => exact Settled.pure []
  | succ n ih =>
    refine compact_settled.bind fun vout => (bad_settled _).ite ((coin_settled _ _).bind fun found => ?_)
    exact (bad_settled _).ite ((ih _ _).bind fun _ => Settled.pure _)

theorem group_shaped_settled (same_code : Bool) :
    Settled PErr.Short (group_shaped strict base_height same_code) := by
  refine (take_settled _).bind fun txid => compact_settled.bind fun n => (bad_settled _).ite ?_
  exact (group_coins_settled _ _ _ _ _ _ _).bind fun _ => Settled.pure _

theorem group_settled : Settled PErr.Short (group base_height) := group_shaped_settled _ _ _

end Settled

end AvilaNode.Snapshot

namespace AvilaNode.Snapshot

open ByteStrings ByteReader

def ALIGN : ℕ := 4096

def MAX_GROUP : ℕ := 16 <<< 20

def READ_BLOCK : ℕ := 8 <<< 20

/-- `Panic` is a division by a bucket of no bytes. -/
inductive ScanError where
  | Invalid (message : String)
  | UnexpectedEof
  | Panic
deriving DecidableEq, Repr

def invalid {α : Type} (message : String) : Except ScanError α := .error (.Invalid message)

def align_down (x : ℕ) : ℕ := x / ALIGN * ALIGN

def align_up (x : ℕ) : ℕ := (x + (ALIGN - 1)) / ALIGN * ALIGN

def read_full_at (file : List UInt8) (len off : ℕ) : List UInt8 := (file.drop off).take len

/-- The bytes held and not consumed, the offset of the first of them, and where the helper thread reads next. -/
structure Stream where
  window : List UInt8
  off : ℕ
  skip : ℕ
  next : ℕ
  limit : ℕ
  ended : Bool
  done : Bool
  read : ℕ
deriving DecidableEq, Repr

namespace Stream

def new (file_len start limit : ℕ) : Stream :=
  let first := align_down start
  ⟨[], first, start - first, first, min limit file_len, false, false, 0⟩

def consume (s : Stream) (n : ℕ) : Stream := { s with window := s.window.drop n, off := s.off + n }

def fill (file : List UInt8) (s : Stream) : Except ScanError (Bool × Stream) :=
  if s.done then .ok (false, s)
  else if MAX_GROUP < s.window.length then invalid "txid group larger than the parse window"
  else if s.ended ∨ s.limit ≤ s.next then .ok (false, { s with done := true })
  else
    let want := min READ_BLOCK (align_up (s.limit - s.next))
    let block := read_full_at file want s.next
    let n := block.length
    let s := { s with window := s.window ++ block, next := s.next + n, ended := n < want, read := s.read + n }
    let skip := min s.skip s.window.length
    .ok (0 < n, { s.consume skip with skip := s.skip - skip })

end Stream

structure Header where
  network : List UInt8
  base_blockhash : List UInt8
  coins_count : ℕ
deriving DecidableEq, Repr

def MAGIC : List UInt8 := [0x75, 0x74, 0x78, 0x6f, 0xff]

def read_header (file : List UInt8) : Except ScanError Header :=
  if file.length < HEADER_LEN then .error .UnexpectedEof
  else if file.take 5 ≠ MAGIC then invalid "bad snapshot magic"
  else if value ((file.drop 5).take 2) ≠ 2 then invalid "unsupported snapshot version"
  else .ok ⟨(file.drop 7).take 4, (file.drop 11).take 32, value ((file.drop 43).take 8)⟩

def txid_le (a b : List UInt8) : Bool := decide ¬ b < a

def bucket_of (off bucket : ℕ) : Except ScanError ℕ :=
  if bucket = 0 then .error .Panic else .ok ((off - HEADER_LEN) / bucket)

structure Region where
  first : ℕ
  stop : ℕ
  coins : ℕ
  groups : ℕ
  first_txid : Option (List UInt8)
  last_txid : Option (List UInt8)
  last_n : ℕ
  sparse : List (List UInt8 × ℕ)
  read : ℕ
deriving DecidableEq, Repr

variable [PublicKeys]

def window_group (base_height : ℕ) (window : List UInt8) : Except PErr (Group × ℕ) :=
  (group base_height window).map fun found => (found.1, window.length - found.2.length)

/-- The loop of every pass: each turn takes a group or reads a block, but for the last. A pass with an open end is
over where the file is; the others have a place to reach. -/
def group_loop {σ : Type} (file : List UInt8) (base_height : ℕ) (stop : Option ℕ) (open_end : Bool)
    (push : σ → ℕ → Group → Except ScanError σ) : ℕ → Stream → σ → Except ScanError (Stream × σ)
  | 0, _, _ => .error .Panic
  | turns + 1, s, acc =>
    if stop.any (· ≤ s.off) then .ok (s, acc)
    else
      match window_group base_height s.window with
      | .ok (g, len) => do
        let acc ← push acc s.off g
        group_loop file base_height stop open_end push turns (s.consume len) acc
      | .error .Short => do
        let (more, s) ← s.fill file
        if more then group_loop file base_height stop open_end push turns s acc
        else if !open_end then invalid "hint interval runs past the data"
        else if s.window = [] then .ok (s, acc)
        else invalid "truncated snapshot"
      | .error (.Bad m) => invalid m

def loop_turns (file : List UInt8) : ℕ := 2 * file.length + 1

def push_group (bucket : ℕ) (acc : Region × Option ℕ) (off : ℕ) (g : Group) : Except ScanError (Region × Option ℕ) :=
  let (r, prev_bucket) := acc
  if r.last_txid.any fun t => txid_le g.txid t then invalid "txids out of order"
  else do
    let b ← bucket_of off bucket
    let sparse := if some b ≠ prev_bucket then r.sparse ++ [(g.txid, off)] else r.sparse
    pure ({ r with
      first_txid := some (r.first_txid.getD g.txid), last_txid := some g.txid, sparse := sparse, coins :=
        r.coins + g.n,
      groups := r.groups + 1, last_n := g.n }, some b)

def empty_region (off : ℕ) : Region := ⟨off, off, 0, 0, none, none, 0, [], 0⟩

def scan_region (file : List UInt8) (start stop base_height bucket : ℕ) : Except ScanError Region := do
  let (_, s) ← (Stream.new file.length start file.length).fill file
  let (s, r) ← group_loop file base_height (some stop) true (push_group bucket) (loop_turns file) s
    (empty_region s.off, none)
  pure { r.1 with stop := s.off, read := s.read }

def check_end (hdr : Header) (file_len stop coins last_n groups : ℕ) : Except ScanError Unit :=
  if stop ≠ file_len then invalid "snapshot does not end at a group boundary"
  else if coins ≠ hdr.coins_count then
    invalid ("coins count mismatch: header " ++ toString hdr.coins_count ++ " file " ++ toString coins)
  else if 0 < groups ∧ last_n = 0 then invalid "coins left over after the declared count"
  else .ok ()

end AvilaNode.Snapshot
