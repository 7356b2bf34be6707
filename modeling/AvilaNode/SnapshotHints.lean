import AvilaNode.ShaStream
import AvilaNode.SnapshotStream

/-! Resume points for a snapshot's hash, as they are kept in a file. -/

namespace AvilaNode.Snapshot

open ByteStrings ByteReader

structure Hint where
  off : ℕ
  coins : ℕ
  state : ShaState
deriving DecidableEq

structure Hints where
  file_len : ℕ
  header : Header
  hints : List Hint
deriving DecidableEq

def HINTS_MAGIC : List UInt8 := [0x41, 0x56, 0x48, 0x49, 0x4e, 0x54, 0x30, 0x31]

def Hint.bytes (h : Hint) : List UInt8 :=
  le 8 h.off ++ (le 8 h.coins ++ (le 8 h.state.total ++ (h.state.h.toList.flatMap (fun w => le 4 w.toNat) ++
    ([UInt8.ofNat h.state.buf_len] ++
      (h.state.buf.take h.state.buf_len ++ (List.replicate 64 0).take (64 - h.state.buf_len))))))

/-- `none` where a buffer's length is more than it holds. The count is cut to its 32 bits. -/
def Hints.encode (h : Hints) : Option (List UInt8) :=
  if ∃ hint ∈ h.hints, 64 < hint.state.buf_len then none
  else
    some (HINTS_MAGIC ++ (le 8 h.file_len ++
      (h.header.network ++ (h.header.base_blockhash ++ (le 8 h.header.coins_count ++
      (le 4 (h.hints.length % 2 ^ 32) ++ h.hints.flatMap Hint.bytes))))))

abbrev HintReader := ByteReader ScanError

def get (n : ℕ) : HintReader (List UInt8) := fun b =>
  if n ≤ b.length then .ok (b.take n, b.drop n) else invalid "short hints file"

def get_le (n : ℕ) : HintReader ℕ := do
  let s ← get n
  pure (value s)

def get_buf : HintReader { buf : List UInt8 // buf.length = 64 } := fun b =>
  if h : 64 ≤ b.length then .ok (⟨b.take 64, List.length_take_of_le h⟩, b.drop 64) else invalid "short hints file"

def fail {α : Type} (message : String) : HintReader α := fun _ => invalid message

def words_of (words : List ℕ) : ShaWords := Vector.ofFn fun i => UInt32.ofNat (words.getD i 0)

def Hint.read : HintReader Hint := do
  let off ← get_le 8
  let coins ← get_le 8
  let total ← get_le 8
  let words ← repeated (get_le 4) 8
  let buf_len ← get_le 1
  if 64 ≤ buf_len then fail "bad hint buffer length"
  else do
    let buf ← get_buf
    pure ⟨off, coins, ⟨words_of words, buf.1, buf_len, total, buf.2⟩⟩

def Hints.read : HintReader Hints := do
  let magic ← get 8
  if magic ≠ HINTS_MAGIC then fail "bad hints magic"
  else do
    let file_len ← get_le 8
    let network ← get 4
    let base_blockhash ← get 32
    let coins_count ← get_le 8
    let n ← get_le 4
    let hints ← repeated Hint.read n
    pure ⟨file_len, ⟨network, base_blockhash, coins_count⟩, hints⟩

def Hints.decode (b : List UInt8) : Except ScanError Hints := (Hints.read b).map (·.1)

section RoundTrip

def Hint.cleaned (h : Hint) : Hint :=
  { h with state := { h.state with
    buf := (h.state.buf.take h.state.buf_len ++ List.replicate 64 0).take 64
    length_buf := by
      rw [List.length_take, List.length_append, List.length_replicate]
      omega } }

variable {h : Hint}

theorem Hint.cleaned_buf (hlen : h.state.buf_len ≤ 64) :
    h.cleaned.state.buf = h.state.buf.take h.state.buf_len ++ List.replicate (64 - h.state.buf_len) 0 := by
  rw [cleaned]
  dsimp only
  rw [List.take_append, List.take_take, List.length_take, h.state.length_buf, List.take_replicate,
    Nat.min_eq_left hlen,
    Nat.min_eq_right hlen, Nat.min_eq_left (Nat.sub_le _ _)]

theorem Hint.cleaned_content (hlen : h.state.buf_len ≤ 64) : h.cleaned.state.content = h.state.content := by
  have hheld : (h.state.buf.take h.state.buf_len).length = h.state.buf_len := by
    rw [List.length_take, h.state.length_buf, Nat.min_eq_left hlen]
  rw [ShaState.content, cleaned_buf hlen]
  change ShaState.Content.mk _ (List.take h.state.buf_len _) _ = _
  rw [List.take_left' hheld]
  rfl

structure Hint.Fits (h : Hint) : Prop where
  off : h.off < 2 ^ 64
  coins : h.coins < 2 ^ 64
  total : h.state.total < 2 ^ 64
  buf_len : h.state.buf_len < 64

theorem get_reads {n : ℕ} {front : List UInt8} (h : front.length = n) : Reads (get n) front front := by
  intro tail
  rw [get, if_pos (by rw [List.length_append, h]; exact Nat.le_add_right _ _), List.take_left' h, List.drop_left' h]

theorem get_le_reads {n v : ℕ} (h : v < 256 ^ n) : Reads (get_le n) (le n v) v :=
  (get_reads (length_le n v)).map_eq (value_le h)

theorem get_buf_reads {buf : List UInt8} (h : buf.length = 64) : Reads get_buf buf ⟨buf, h⟩ := by
  intro tail
  rw [get_buf, dif_pos (by rw [List.length_append, h]; exact Nat.le_add_right _ _)]
  congr 3
  · exact List.take_left' h
  · exact List.drop_left' h

theorem words_reads (h : ShaWords) :
    Reads (repeated (get_le 4) 8) (h.toList.flatMap fun w => le 4 w.toNat) (h.toList.map UInt32.toNat) := by
  have hlen : (h.toList.map UInt32.toNat).length = 8 := by rw [List.length_map, Vector.length_toList]
  have hread := @Reads.repeated _ _ (get_le 4) (le 4) (h.toList.map UInt32.toNat) (by
    intro v hv
    obtain ⟨w, -, rfl⟩ := List.mem_map.mp hv
    exact get_le_reads w.toNat_lt)
  rw [hlen, List.flatMap_map] at hread
  exact hread

theorem words_of_toList (h : ShaWords) : words_of (h.toList.map UInt32.toNat) = h := by
  refine Vector.ext fun i hi => ?_
  rw [words_of, Vector.getElem_ofFn, List.getD_eq_getElem?_getD, List.getElem?_map,
    List.getElem?_eq_getElem (by rwa [Vector.length_toList])]
  simp

theorem Hint.cleaned_bytes (hlen : h.state.buf_len ≤ 64) : h.cleaned.bytes = h.bytes := by
  have hheld := congrArg ShaState.Content.held (cleaned_content hlen)
  rw [bytes, bytes]
  change _ ++ (_ ++ (_ ++ (_ ++ (_ ++ (h.cleaned.state.content.held ++ _))))) = _
  rw [hheld]
  rfl

theorem Hint.reads (hfits : h.Fits) : Reads Hint.read h.bytes h.cleaned := by
  have hpow : 256 ^ 8 = 2 ^ 64 := by decide
  have hbuf : Reads get_buf (h.state.buf.take h.state.buf_len ++ (List.replicate 64 0).take (64 - h.state.buf_len))
      ⟨h.cleaned.state.buf, h.cleaned.state.length_buf⟩ := by
    have hread := get_buf_reads h.cleaned.state.length_buf
    rw [List.take_replicate, Nat.min_eq_left (Nat.sub_le _ _), ← cleaned_buf hfits.buf_len.le]
    exact hread
  have hlen : Reads (get_le 1) [UInt8.ofNat h.state.buf_len] h.state.buf_len := by
    have hle : le 1 h.state.buf_len = [UInt8.ofNat h.state.buf_len] := rfl
    rw [← hle]
    exact get_le_reads (hfits.buf_len.trans (by decide))
  refine (get_le_reads (by rw [hpow]; exact hfits.off)).bind ((get_le_reads (by rw [hpow]; exact hfits.coins)).bind
    ((get_le_reads (by rw [hpow]; exact hfits.total)).bind ((words_reads h.state.h).bind (hlen.bind ?_))))
  rw [if_neg (by have := hfits.buf_len; omega)]
  refine hbuf.map_eq ?_
  rw [words_of_toList]
  rfl

theorem Hints.decode_encode {h : Hints} (hlen : h.file_len < 2 ^ 64) (hnet : h.header.network.length = 4)
    (hbase : h.header.base_blockhash.length = 32) (hcoins : h.header.coins_count < 2 ^ 64)
    (hfits : ∀ hint ∈ h.hints, hint.Fits) : ∃ bytes, h.encode = some bytes ∧ Hints.decode bytes =
      .ok ⟨h.file_len, h.header, (h.hints.take (h.hints.length % 2 ^ 32)).map Hint.cleaned⟩ := by
  have hpow : 256 ^ 8 = 2 ^ 64 := by decide
  have hcount : h.hints.length % 2 ^ 32 < 256 ^ 4 := Nat.mod_lt _ (by decide)
  have hfew : ¬∃ hint ∈ h.hints, 64 < hint.state.buf_len := by
    rintro ⟨hint, hmem, hlt⟩
    have := (hfits hint hmem).buf_len
    omega
  obtain ⟨kept, hkept⟩ : ∃ kept, kept = h.hints.take (h.hints.length % 2 ^ 32) := ⟨_, rfl⟩
  have hmem : ∀ hint ∈ kept, hint.Fits := fun hint hin => hfits hint (List.mem_of_mem_take (hkept ▸ hin))
  have hlength : kept.length = h.hints.length % 2 ^ 32 := by
    rw [hkept, List.length_take, Nat.min_eq_left (Nat.mod_le _ _)]
  have hread : Reads (repeated Hint.read (h.hints.length % 2 ^ 32)) (kept.flatMap Hint.bytes)
    (kept.map Hint.cleaned) := by
    have hrepeated := @Reads.repeated _ _ Hint.read Hint.bytes (kept.map Hint.cleaned) (by
      intro a ha
      obtain ⟨hint, hin, rfl⟩ := List.mem_map.mp ha
      rw [Hint.cleaned_bytes (hmem hint hin).buf_len.le]
      exact Hint.reads (hmem hint hin))
    have hbytes : (kept.map Hint.cleaned).flatMap Hint.bytes = kept.flatMap Hint.bytes := by
      rw [List.flatMap_map]
      exact List.flatMap_congr fun hint hin => Hint.cleaned_bytes (hmem hint hin).buf_len.le
    rwa [List.length_map, hlength, hbytes] at hrepeated
  have hall : h.hints.flatMap Hint.bytes =
      kept.flatMap Hint.bytes ++ (h.hints.drop (h.hints.length % 2 ^ 32)).flatMap Hint.bytes := by
    rw [← List.flatMap_append, hkept, List.take_append_drop]
  have hfields : Reads Hints.read (HINTS_MAGIC ++ (le 8 h.file_len ++ (h.header.network ++ (h.header.base_blockhash ++
      (le 8 h.header.coins_count ++ (le 4 (h.hints.length % 2 ^ 32) ++ kept.flatMap Hint.bytes))))))
      ⟨h.file_len, h.header, kept.map Hint.cleaned⟩ := by
    refine (@get_reads 8 HINTS_MAGIC rfl).bind ?_
    rw [if_neg (by simp)]
    exact (get_le_reads (by rw [hpow]; exact hlen)).bind ((get_reads hnet).bind ((get_reads hbase).bind
      ((get_le_reads (by rw [hpow]; exact hcoins)).bind ((get_le_reads hcount).bind (hread.map_eq rfl)))))
  refine ⟨_, if_neg hfew, ?_⟩
  subst hkept
  rw [hall, decode]
  have hwhole := hfields ((h.hints.drop (h.hints.length % 2 ^ 32)).flatMap Hint.bytes)
  simp only [List.append_assoc] at hwhole ⊢
  rw [hwhole]
  rfl

end RoundTrip

end AvilaNode.Snapshot
