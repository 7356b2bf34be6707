import AvilaNode.CoinCodec
import AvilaNode.CoinsBackend

/-! Sorted runs as files: what the builder writes and what a point lookup reads back. -/

namespace AvilaNode

open ByteStrings CoinCodec

abbrev RunKey := BitVec 288

namespace RunFile

def outpoint_key (op : OutPoint) : RunKey := op.txid ++ BitVec.ofNat 32 op.vout

def MAGIC : List UInt8 := [0x41, 0x56, 0x52, 0x55, 0x4e, 0x31, 0, 0]

def VERSION : ℕ := 1

def HDR : ℕ := 32

def key_bytes (key : RunKey) : List UInt8 := (le 36 key.toNat).reverse

def read_key (bytes : List UInt8) : RunKey := BitVec.ofNat 288 (value bytes.reverse)

structure RunBuilder where
  written : List UInt8
  sparse : List (RunKey × ℕ)
  count : ℕ
  stride : UInt32
  pos : ℕ
  last_key : Option RunKey

def create_with_stride (stride : UInt32) : RunBuilder := ⟨[], [], 0, stride, HDR, none⟩

def record (key : RunKey) (body : List UInt8) : List UInt8 := key_bytes key ++ le 4 body.length ++ body

namespace RunBuilder

def push_wire (b : RunBuilder) (key : RunKey) (body : List UInt8) : Except IoError RunBuilder :=
  if b.last_key.any fun prev => decide (key.toNat ≤ prev.toNat) then .error (.other "sorted-run keys must ascend")
  else
    .ok
      { b with
        -- stride 0 samples the first record alone, as `is_multiple_of(0)` does
        sparse := if b.count % b.stride.toNat = 0 then b.sparse ++ [(key, b.pos)] else b.sparse
        written := b.written ++ record key body
        pos := b.pos + 36 + 4 + body.length
        last_key := some key
        count := b.count + 1 }

def push [PublicKeys] (b : RunBuilder) (op : OutPoint) (coin : Coin) : Except IoError RunBuilder :=
  b.push_wire (outpoint_key op) (encode_coin coin)

def index (sparse : List (RunKey × ℕ)) : List UInt8 := sparse.flatMap fun e => key_bytes e.1 ++ le 8 e.2

def header (b : RunBuilder) : List UInt8 :=
  MAGIC ++ le 4 VERSION ++ le 4 b.stride.toNat ++ le 8 b.count ++ le 8 b.pos

def finish (b : RunBuilder) : List UInt8 := b.header ++ b.written ++ index b.sparse

end RunBuilder

def push_all (b : RunBuilder) : List (RunKey × List UInt8) → Except IoError RunBuilder
  | [] => .ok b
  | r :: rs =>
    match b.push_wire r.1 r.2 with
    | .error e => .error e
    | .ok b => push_all b rs

structure SortedRun where
  file : List UInt8
  sparse : List (RunKey × ℕ)
  count : ℕ
  stride : ℕ

def read_index : ℕ → List UInt8 → List (RunKey × ℕ)
  | 0, _ => []
  | n + 1, bytes =>
    (read_key (bytes.take 36), value ((bytes.drop 36).take 8)) :: read_index n (bytes.drop 44)

namespace SortedRun

def open_ (file : List UInt8) : Except IoError SortedRun :=
  if file.length < HDR then .error (.other "failed to fill whole buffer")
  else if file.take 8 ≠ MAGIC then .error (.other "bad run magic")
  else
    let stride := value ((file.drop 12).take 4)
    let count := value ((file.drop 16).take 8)
    let index_off := value ((file.drop 24).take 8)
    if file.length < index_off then .error (.other "attempt to subtract with overflow")
    else .ok ⟨file, read_index ((file.length - index_off) / 44) (file.drop index_off), count, stride⟩

variable [PublicKeys]

def scan (key : RunKey) : ℕ → List UInt8 → Option Coin
  | 0, _ => none
  | fuel + 1, buf =>
    if buf.length < 40 then none
    else
      let k := read_key (buf.take 36)
      let len := value ((buf.drop 36).take 4)
      if buf.length < 40 + len then none
      else if k = key then decode_coin ((buf.drop 40).take len)
      else if key.toNat < k.toNat then none
      else scan key fuel (buf.drop (40 + len))

def scan_window (run : SortedRun) (off_lo off_hi : ℕ) (key : RunKey) : Option Coin :=
  let cap := max (min (run.stride * 84) (off_hi - off_lo)) 84
  let cap := min cap (run.file.length - off_lo)
  if cap < 40 then none
  else scan key cap ((run.file.drop off_lo).take cap)

def partition_point (sparse : List (RunKey × ℕ)) (key : RunKey) : ℕ :=
  sparse.countP fun e => decide (e.1.toNat ≤ key.toNat)

def get_key (run : SortedRun) (key : RunKey) : Option Coin :=
  match partition_point run.sparse key with
  | 0 => none
  | lo_idx + 1 =>
    match run.sparse[lo_idx]? with
    | none => none
    | some (_, off_lo) =>
      match run.sparse[lo_idx + 1]? with
      | some (_, off_hi) => run.scan_window off_lo off_hi key
      | none => run.scan_window off_lo U64_MAX key

end SortedRun

@[simp] theorem length_key_bytes (key : RunKey) : (key_bytes key).length = 36 := by simp [key_bytes]

theorem key_lt (key : RunKey) : key.toNat < 256 ^ 36 := by
  have hpow : (256 : ℕ) ^ 36 = 2 ^ 288 := by rw [show (256 : ℕ) = 2 ^ 8 by norm_num, ← pow_mul]
  exact Nat.lt_of_lt_of_eq key.isLt hpow.symm

theorem read_key_bytes (key : RunKey) : read_key (key_bytes key) = key := by
  rw [read_key, key_bytes, List.reverse_reverse, value_le (key_lt key), BitVec.ofNat_toNat, BitVec.setWidth_eq]

def record_bytes (r : RunKey × List UInt8) : ℕ := 40 + r.2.length

def records (rs : List (RunKey × List UInt8)) : List UInt8 := rs.flatMap fun r => record r.1 r.2

def records_bytes (rs : List (RunKey × List UInt8)) : ℕ := (rs.map record_bytes).sum

@[simp] theorem length_record (key : RunKey) (body : List UInt8) : (record key body).length = 40 + body.length := by
  simp [record]
  omega

theorem length_records (rs : List (RunKey × List UInt8)) : (records rs).length = records_bytes rs := by
  rw [records, records_bytes, List.length_flatMap]
  simp only [length_record]
  rfl

theorem records_append (a b : List (RunKey × List UInt8)) : records (a ++ b) = records a ++ records b :=
  List.flatMap_append

theorem records_bytes_append (a b : List (RunKey × List UInt8)) :
    records_bytes (a ++ b) = records_bytes a + records_bytes b := by
  simp [records_bytes]

namespace SortedRun

variable [PublicKeys]

variable {key : RunKey} {buf body tail : List UInt8} {cap : ℕ}

theorem scan_fuel {fuel fuel' : ℕ} (h : buf.length ≤ fuel) (h' : buf.length ≤ fuel') :
    scan key fuel buf = scan key fuel' buf := by
  induction fuel generalizing fuel' buf with
  | zero =>
    cases fuel' with
    | zero => rfl
    | succ fuel' => rw [scan, scan, if_pos (by omega)]
  | succ fuel ih =>
    cases fuel' with
    | zero => rw [scan, scan, if_pos (by omega)]
    | succ fuel' =>
      rw [scan, scan]
      split
      · rfl
      · dsimp only
        generalize value ((buf.drop 36).take 4) = len
        have hl : (buf.drop (40 + len)).length = buf.length - (40 + len) := List.length_drop
        rw [@ih _ fuel' (by omega) (by omega)]

def look (key : RunKey) (buf : List UInt8) : Option Coin := scan key buf.length buf

theorem scan_eq_look {fuel : ℕ} (h : buf.length ≤ fuel) : scan key fuel buf = look key buf :=
  scan_fuel h (le_refl _)

theorem look_short (h : buf.length < 40) : look key buf = none := by
  rw [← scan_eq_look (Nat.le_succ _), scan, if_pos h]

theorem look_eq (h : 40 ≤ buf.length) : look key buf = if buf.length < 40 + value ((buf.drop 36).take 4) then none
      else if read_key (buf.take 36) = key then decode_coin ((buf.drop 40).take (value ((buf.drop 36).take 4)))
      else if key.toNat < (read_key (buf.take 36)).toNat then none
      else look key (buf.drop (40 + value ((buf.drop 36).take 4))) := by
  rw [← scan_eq_look (Nat.le_succ _), scan, if_neg (by omega)]
  dsimp only
  rw [scan_eq_look (by simp)]

theorem look_record {k : RunKey} (h : 40 ≤ cap) : look key ((record k body ++ tail).take cap) =
      if min cap (40 + body.length + tail.length) < 40 + body.length % 2 ^ 32 then none
      else if k = key then decode_coin (((body ++ tail).take (cap - 40)).take (body.length % 2 ^ 32))
      else if key.toNat < k.toNat then none
      else look key (((body ++ tail).take (cap - 40)).drop (body.length % 2 ^ 32)) := by
  have hlen : ((record k body ++ tail).take cap).length = min cap (40 + body.length + tail.length) := by simp
  have hkey : ((record k body ++ tail).take cap).take 36 = key_bytes k := by
    rw [List.take_take, min_eq_left (by omega), record, List.append_assoc, List.append_assoc,
      List.take_append_of_le_length (by simp), List.take_of_length_le (by simp)]
  have hdrop : ((record k body ++ tail).take cap).drop 40 = (body ++ tail).take (cap - 40) := by
    have hsplit : record k body ++ tail = (key_bytes k ++ le 4 body.length) ++ (body ++ tail) := by
      simp only [record, List.append_assoc]
    rw [List.drop_take, hsplit, List.drop_left' (by simp)]
  have hword : (((record k body ++ tail).take cap).drop 36).take 4 = le 4 body.length := by
    have hsplit : record k body ++ tail = key_bytes k ++ (le 4 body.length ++ (body ++ tail)) := by
      simp only [record, List.append_assoc]
    rw [List.drop_take, hsplit, List.drop_left' (length_key_bytes k), List.take_take, min_eq_left (by omega),
      List.take_left' (by simp)]
  rw [look_eq (by rw [hlen]; omega), hlen, hkey, read_key_bytes, hword, hdrop, value_le_mod, ← hdrop, List.drop_drop]
  norm_num

def before (key : RunKey) (rs : List (RunKey × List UInt8)) : Prop := ∀ r ∈ rs, r.1.toNat < key.toNat

def Short (rs : List (RunKey × List UInt8)) : Prop := ∀ r ∈ rs, r.2.length < 2 ^ 32

theorem look_skip {pre : List (RunKey × List UInt8)} (hs : Short pre) (hk : before key pre)
    (hcap : records_bytes pre ≤ cap) :
    look key ((records pre ++ tail).take cap) = look key (tail.take (cap - records_bytes pre)) := by
  induction pre generalizing cap with
  | nil => simp [records, records_bytes]
  | cons r pre ih =>
    obtain ⟨k, body⟩ := r
    obtain ⟨hlen, hs⟩ := List.forall_mem_cons.mp hs
    obtain ⟨hlt, hk⟩ := List.forall_mem_cons.mp hk
    dsimp only at hlen hlt
    have hbytes : records_bytes ((k, body) :: pre) = 40 + body.length + records_bytes pre := by
      simp [records_bytes, record_bytes]
    have hsplit : records ((k, body) :: pre) ++ tail = record k body ++ (records pre ++ tail) := by
      simp [records]
    have hne : k ≠ key := fun h => by rw [h] at hlt; omega
    have htail : (records pre ++ tail).length = records_bytes pre + tail.length := by
      rw [List.length_append, length_records]
    have hrest : ((body ++ (records pre ++ tail)).take (cap - 40)).drop body.length =
        (records pre ++ tail).take (cap - 40 - body.length) := by
      rw [List.drop_take, List.drop_left]
    rw [hbytes] at hcap
    rw [hsplit, look_record (by omega), Nat.mod_eq_of_lt hlen, htail, if_neg (by omega), if_neg hne,
      if_neg (by omega),
      hrest, ih hs hk (by omega), hbytes]
    congr 2
    omega

theorem look_hit (hs : body.length < 2 ^ 32) (hcap : 40 + body.length ≤ cap) :
    look key ((record key body ++ tail).take cap) = decode_coin body := by
  rw [look_record (by omega), Nat.mod_eq_of_lt hs, if_neg (by omega), if_pos rfl, List.take_take,
    min_eq_left (by omega), List.take_left]

theorem look_cut (hs : body.length < 2 ^ 32) (hcap : cap < 40 + body.length) :
    look key ((record key body ++ tail).take cap) = none := by
  rcases Nat.lt_or_ge cap 40 with h | h
  · exact look_short (by simp; omega)
  · rw [look_record h, Nat.mod_eq_of_lt hs, if_pos (by omega)]

theorem look_past {k : RunKey} (h : key.toNat < k.toNat) : look key ((record k body ++ tail).take cap) = none := by
  rcases Nat.lt_or_ge cap 40 with hc | hc
  · exact look_short (by simp; omega)
  · rw [look_record hc, if_neg (show k ≠ key from fun he => by rw [he] at h; omega), if_pos h]
    split <;> rfl

theorem look_long {c : Coin} (hs : 2 ^ 32 ≤ body.length)
    (h : look key ((record key body ++ tail).take cap) = some c) :
    ∃ m, m < body.length ∧ decode_coin (body.take m) = some c := by
  rcases Nat.lt_or_ge cap 40 with hc | hc
  · rw [look_short (by simp; omega)] at h
    cases h
  rw [look_record hc, if_pos rfl] at h
  split at h
  · cases h
  · have hmod : body.length % 2 ^ 32 < 2 ^ 32 := Nat.mod_lt _ (by norm_num)
    rw [List.take_take, List.take_append_of_le_length (by omega)] at h
    exact ⟨_, by omega, h⟩

theorem decode_of_look {c : Coin} (h : look key buf = some c) : ∃ body, decode_coin body = some c := by
  unfold look at h
  generalize buf.length = fuel at h
  induction fuel generalizing buf with
  | zero => cases h
  | succ fuel ih =>
    rw [scan] at h
    dsimp only at h
    split_ifs at h
    · exact ⟨_, h⟩
    · exact ih h

end SortedRun

def sample (stride : ℕ) : ℕ → ℕ → List (RunKey × List UInt8) → List (RunKey × ℕ)
  | _, _, [] => []
  | i, pos, r :: rs =>
    if i % stride = 0 then (r.1, pos) :: sample stride (i + 1) (pos + record_bytes r) rs
    else sample stride (i + 1) (pos + record_bytes r) rs

def ascending (rs : List (RunKey × List UInt8)) : Prop := rs.Pairwise fun a b => a.1.toNat < b.1.toNat

theorem push_all_eq {b : RunBuilder} {rs : List (RunKey × List UInt8)} (hasc : ascending rs)
    (hlast : ∀ prev ∈ b.last_key, ∀ r ∈ rs, prev.toNat < r.1.toNat) :
    ∃ last_key, push_all b rs = .ok
      { b with
        written := b.written ++ records rs
        sparse := b.sparse ++ sample b.stride.toNat b.count b.pos rs
        count := b.count + rs.length
        pos := b.pos + records_bytes rs
        last_key } := by
  induction rs generalizing b with
  | nil => exact ⟨b.last_key, by simp [push_all, records, records_bytes, sample]⟩
  | cons r rs ih =>
    obtain ⟨hr, hasc⟩ := List.pairwise_cons.mp hasc
    have hpush : b.last_key.any (fun prev => decide (r.1.toNat ≤ prev.toNat)) = false := by
      cases hp : b.last_key with
      | none => rfl
      | some prev => simpa using hlast prev hp r List.mem_cons_self
    rw [push_all, RunBuilder.push_wire, hpush, if_neg (by simp)]
    dsimp only
    obtain ⟨last_key, h⟩ := ih (b := ⟨_, _, _, b.stride, _, some r.1⟩) hasc (by simpa using hr)
    refine ⟨last_key, h.trans ?_⟩
    have hbytes : records_bytes (r :: rs) = record_bytes r + records_bytes rs := by simp [records_bytes]
    have hpos : b.pos + 36 + 4 + r.2.length = b.pos + record_bytes r := by simp [record_bytes]; omega
    rw [hbytes, hpos]
    simp only [records, List.flatMap_cons, List.append_assoc, List.length_cons, sample]
    split
    · simp [Nat.add_assoc, Nat.add_comm 1]
    · simp [Nat.add_assoc, Nat.add_comm 1]

theorem read_index_index {sparse : List (RunKey × ℕ)} (h : ∀ e ∈ sparse, e.2 < 2 ^ 64) :
    read_index sparse.length (RunBuilder.index sparse) = sparse := by
  induction sparse with
  | nil => rfl
  | cons e sparse ih =>
    obtain ⟨he, h⟩ := List.forall_mem_cons.mp h
    have hsplit : RunBuilder.index (e :: sparse) = key_bytes e.1 ++ (le 8 e.2 ++ RunBuilder.index sparse) := by
      simp [RunBuilder.index]
    rw [List.length_cons, read_index, hsplit, List.take_left' (length_key_bytes _),
      List.drop_left' (length_key_bytes _),
      List.take_left' (length_le 8 _), read_key_bytes, value_le (by omega), ← List.append_assoc,
      List.drop_left' (by simp), ih h]

theorem length_index (sparse : List (RunKey × ℕ)) : (RunBuilder.index sparse).length = 44 * sparse.length := by
  induction sparse with
  | nil => rfl
  | cons e sparse ih =>
    have hsplit : RunBuilder.index (e :: sparse) = key_bytes e.1 ++ le 8 e.2 ++ RunBuilder.index sparse := by
      simp [RunBuilder.index]
    rw [hsplit, List.length_append, List.length_append, ih, length_key_bytes, length_le, List.length_cons]
    omega

theorem length_header (b : RunBuilder) : b.header.length = HDR := by
  simp [RunBuilder.header, MAGIC, HDR]

theorem value_field {bytes head rest : List UInt8} {width n : ℕ} (h : bytes = head ++ (le width n ++ rest))
    (hn : n < 256 ^ width) : value ((bytes.drop head.length).take width) = n := by
  rw [h, List.drop_left, List.take_left' (length_le width n), value_le hn]

theorem open_finish {b : RunBuilder} (hcount : b.count < 2 ^ 64) (hpos : b.pos = HDR + b.written.length)
    (hfit : b.pos < 2 ^ 64) (hsparse : ∀ e ∈ b.sparse, e.2 < 2 ^ 64) :
    SortedRun.open_ b.finish = .ok ⟨b.finish, b.sparse, b.count, b.stride.toNat⟩ := by
  have hlen : b.finish.length = b.pos + 44 * b.sparse.length := by
    rw [RunBuilder.finish, List.length_append, List.length_append, length_header, length_index, hpos]
  have hindex : b.finish.drop b.pos = RunBuilder.index b.sparse := by
    rw [RunBuilder.finish, List.drop_left' (by rw [List.length_append, length_header, hpos])]
  have hbytes : b.finish = MAGIC ++ (le 4 VERSION ++ (le 4 b.stride.toNat ++ (le 8 b.count ++ (le 8 b.pos
      ++ (b.written ++ RunBuilder.index b.sparse))))) := by
    simp only [RunBuilder.finish, RunBuilder.header, List.append_assoc]
  have hmagic : b.finish.take 8 = MAGIC := by rw [hbytes, List.take_left' (show MAGIC.length = 8 from rfl)]
  have hstride : value ((b.finish.drop 12).take 4) = b.stride.toNat :=
    @value_field _ (MAGIC ++ le 4 VERSION) _ 4 _ (by rw [hbytes, List.append_assoc]) b.stride.toNat_lt
  have hcount' : value ((b.finish.drop 16).take 8) = b.count :=
    @value_field _ (MAGIC ++ le 4 VERSION ++ le 4 b.stride.toNat) _ 8 _
      (by rw [hbytes, List.append_assoc, List.append_assoc]) (by omega)
  have hoff : value ((b.finish.drop 24).take 8) = b.pos :=
    @value_field _ (MAGIC ++ le 4 VERSION ++ le 4 b.stride.toNat ++ le 8 b.count) _ 8 _
      (by rw [hbytes, List.append_assoc, List.append_assoc, List.append_assoc]) (by omega)
  have hentries : (b.pos + 44 * b.sparse.length - b.pos) / 44 = b.sparse.length := by omega
  unfold SortedRun.open_
  rw [if_neg (by omega), if_neg (by simpa using hmagic)]
  dsimp only
  rw [hstride, hcount', hoff, hlen, if_neg (by omega), hentries, hindex, read_index_index hsparse]

end RunFile

end AvilaNode
