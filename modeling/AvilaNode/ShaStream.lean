import AvilaNode.BlockAbsorber
import AvilaNode.ByteStrings

/-! A hash that can be left within a block and taken up again. -/

namespace AvilaNode

open ByteStrings

abbrev ShaWords := Vector UInt32 8

/-- The compression of one block, and the hash of a whole byte string. -/
class ShaKernel where
  compress256 : ShaWords → List UInt8 → ShaWords
  sha256 : List UInt8 → List UInt8

/-- The bytes of the buffer past `buf_len` are scratch. -/
structure ShaState where
  h : ShaWords
  buf : List UInt8
  buf_len : ℕ
  total : ℕ
  length_buf : buf.length = 64
deriving DecidableEq

namespace ShaState

def IV : ShaWords :=
  #v[0x6a09e667, 0xbb67ae85, 0x3c6ef372, 0xa54ff53a, 0x510e527f, 0x9b05688c, 0x1f83d9ab, 0x5be0cd19]

def default : ShaState := ⟨IV, List.replicate 64 0, 0, 0, List.length_replicate⟩

def eq (s o : ShaState) : Bool :=
  s.h == o.h && s.total == o.total && s.buf_len == o.buf_len && s.buf.take s.buf_len == o.buf.take s.buf_len

def write (buf : List UInt8) (start : ℕ) (bytes : List UInt8) : List UInt8 :=
  buf.take start ++ bytes ++ buf.drop (start + bytes.length)

variable {buf : List UInt8}

theorem length_write {start : ℕ} {bytes : List UInt8} (h : start + bytes.length ≤ buf.length) :
    (write buf start bytes).length = buf.length := by
  rw [write, List.length_append, List.length_append, List.length_take, List.length_drop]
  omega

theorem take_write {start : ℕ} (bytes : List UInt8) (h : start ≤ buf.length) :
    (write buf start bytes).take (start + bytes.length) = buf.take start ++ bytes :=
  List.take_left' (by rw [List.length_append, List.length_take, Nat.min_eq_left h])

variable [ShaKernel]

def absorb (s : ShaState) (data : List UInt8) : ShaState :=
  let taken := absorb_all ShaKernel.compress256 64 s.h data
  { s with
    h := taken.1, buf := write s.buf 0 taken.2, buf_len := taken.2.length
    length_buf := by
      have hlt : taken.2.length < 64 := length_absorb_all (by decide) _ _
      rw [length_write (by rw [Nat.zero_add, s.length_buf]; exact hlt.le), s.length_buf] }

/-- `none` where the length of the buffer is more than it holds. -/
def update (s : ShaState) (data : List UInt8) : Option ShaState :=
  let s := { s with total := (s.total + data.length) % 2 ^ 64 }
  if hfull : 64 < s.buf_len then none
  else if 0 < s.buf_len then
    let n := min (64 - s.buf_len) data.length
    let filled : ShaState := { s with
      buf := write s.buf s.buf_len (data.take n), buf_len := s.buf_len + n
      length_buf := by
        rw [length_write (by rw [List.length_take, s.length_buf]; omega), s.length_buf] }
    if filled.buf_len < 64 then some filled
    else some ({ filled with h := ShaKernel.compress256 filled.h filled.buf }.absorb (data.drop n))
  else some (s.absorb data)

def fill (buf : List UInt8) (start stop : ℕ) : List UInt8 := write buf start (List.replicate (stop - start) 0)

def finalize (s : ShaState) : Option (List UInt8) :=
  if 64 ≤ s.buf_len then none
  else
    let bits := s.total * 8 % 2 ^ 64
    let buf := write s.buf s.buf_len [0x80]
    let n := s.buf_len + 1
    let (h, buf, n) :=
      if 56 < n then
        let buf := fill buf n 64
        (ShaKernel.compress256 s.h buf, buf, 0)
      else (s.h, buf, n)
    let buf := write (fill buf n 56) 56 (le 8 bits).reverse
    some ((ShaKernel.compress256 h buf).toList.flatMap fun w => (le 4 w.toNat).reverse)

structure Content where
  h : ShaWords
  held : List UInt8
  total : ℕ
deriving DecidableEq

def content (s : ShaState) : Content := ⟨s.h, s.buf.take s.buf_len, s.total⟩

def Content.update (c : Content) (data : List UInt8) : Content :=
  let taken := absorb_all ShaKernel.compress256 64 c.h (c.held ++ data)
  ⟨taken.1, taken.2, (c.total + data.length) % 2 ^ 64⟩

theorem Content.update_append (c : Content) (data more : List UInt8) :
    (c.update data).update more = c.update (data ++ more) := by
  rw [update, update, update, ← List.append_assoc, absorb_all_append (by decide) c.h (c.held ++ data) more,
    List.length_append, ← Nat.add_assoc, Nat.mod_add_mod]

omit [ShaKernel] in
theorem length_held {s : ShaState} (h : s.buf_len ≤ 64) : s.content.held.length = s.buf_len := by
  rw [content, List.length_take, s.length_buf, Nat.min_eq_left h]

theorem content_absorb (s : ShaState) (data : List UInt8) :
    (s.absorb data).content = ⟨(absorb_all ShaKernel.compress256 64 s.h data).1,
      (absorb_all ShaKernel.compress256 64 s.h data).2, s.total⟩ ∧ (s.absorb data).buf_len < 64 := by
  have hlt : (absorb_all ShaKernel.compress256 64 s.h data).2.length < 64 := length_absorb_all (by decide) s.h data
  refine ⟨?_, hlt⟩
  rw [content, absorb]
  have h := @take_write s.buf 0 (absorb_all ShaKernel.compress256 64 s.h data).2 (Nat.zero_le _)
  rw [Nat.zero_add, List.take_zero, List.nil_append] at h
  rw [h]

theorem update_content {s : ShaState} (h : s.buf_len ≤ 64) (data : List UInt8) :
    ∃ s', s.update data = some s' ∧ s'.buf_len < 64 ∧ s'.content = s.content.update data := by
  have hheld := length_held h
  rw [update]
  dsimp only
  rw [dif_neg (by omega)]
  by_cases hpos : 0 < s.buf_len
  · rw [if_pos hpos]
    by_cases hfew : s.buf_len + min (64 - s.buf_len) data.length < 64
    · rw [if_pos hfew]
      have hmin : min (64 - s.buf_len) data.length = data.length := by omega
      refine ⟨_, rfl, hfew, ?_⟩
      have htake := @take_write s.buf s.buf_len (data.take (min (64 - s.buf_len) data.length))
        (by rw [s.length_buf]; exact h)
      rw [List.length_take, Nat.min_assoc, Nat.min_self] at htake
      have hshort : (s.content.held ++ data).length < 64 := by
        rw [List.length_append, hheld]
        omega
      rw [Content.update, absorb_all_short hshort, content]
      dsimp only
      rw [htake, hmin, List.take_length]
      rfl
    · rw [if_neg hfew]
      have hmin : min (64 - s.buf_len) data.length = 64 - s.buf_len := by omega
      have hblock : (s.content.held ++ data.take (64 - s.buf_len)).length = 64 := by
        rw [List.length_append, hheld, List.length_take]
        omega
      have hbuf : write s.buf s.buf_len (data.take (min (64 - s.buf_len) data.length)) =
          s.content.held ++ data.take (64 - s.buf_len) := by
        rw [write, hmin, List.drop_eq_nil_of_le (by rw [s.length_buf, List.length_take]; omega), List.append_nil]
        rfl
      have hsplit : s.content.held ++ data =
          (s.content.held ++ data.take (64 - s.buf_len)) ++ data.drop (64 - s.buf_len) := by
        rw [List.append_assoc, List.take_append_drop]
      obtain ⟨hcontent, hlt⟩ := content_absorb
        ⟨ShaKernel.compress256 s.h (write s.buf s.buf_len (data.take (min (64 - s.buf_len) data.length))),
          write s.buf s.buf_len (data.take (min (64 - s.buf_len) data.length)),
          s.buf_len + min (64 - s.buf_len) data.length, (s.total + data.length) % 2 ^ 64,
          by rw [length_write (by rw [List.length_take, s.length_buf]; omega), s.length_buf]⟩
        (data.drop (min (64 - s.buf_len) data.length))
      refine ⟨_, rfl, hlt, hcontent.trans ?_⟩
      dsimp only
      rw [hbuf, hmin, Content.update, hsplit, absorb_all_block (by decide) hblock]
      rfl
  · rw [if_neg hpos]
    obtain ⟨hcontent, hlt⟩ := content_absorb { s with total := (s.total + data.length) % 2 ^ 64 } data
    refine ⟨_, rfl, hlt, hcontent.trans ?_⟩
    have hnil : s.content.held = [] := List.length_eq_zero_iff.mp (by omega)
    rw [Content.update, hnil]
    rfl

omit [ShaKernel] in
theorem eq_iff {s o : ShaState} : s.eq o = true ↔ s.content = o.content ∧ s.buf_len = o.buf_len := by
  rw [eq]
  simp only [Bool.and_eq_true, beq_iff_eq, content, Content.mk.injEq]
  constructor
  · rintro ⟨⟨⟨hh, ht⟩, hl⟩, hb⟩
    exact ⟨⟨hh, by rw [hb, hl], ht⟩, hl⟩
  · rintro ⟨⟨hh, hb, ht⟩, hl⟩
    exact ⟨⟨⟨hh, ht⟩, hl⟩, by rw [hb, hl]⟩

theorem finalize_content {s o : ShaState} (hs : s.buf_len < 64) (ho : o.buf_len < 64) (h : s.content = o.content) :
    s.finalize = o.finalize := by
  have hlen : s.buf_len = o.buf_len := by
    rw [← length_held hs.le, h, length_held ho.le]
  have hmark (t : ShaState) (ht : t.buf_len < 64) :
      (write t.buf t.buf_len [0x80]).take (t.buf_len + 1) = t.content.held ++ [0x80] ∧
        (write t.buf t.buf_len [0x80]).length = 64 := by
    refine ⟨take_write [0x80] (by rw [t.length_buf]; exact ht.le), ?_⟩
    rw [length_write (by rw [t.length_buf, List.length_singleton]; omega), t.length_buf]
  have hfill (buf buf' : List UInt8) (start stop : ℕ) (hb : buf.length = 64) (hb' : buf'.length = 64)
    (hle : start ≤ stop)
      (hstop : stop ≤ 64) (hsame : buf.take start = buf'.take start) :
      (fill buf start stop).take stop = (fill buf' start stop).take stop ∧ (fill buf start stop).length = 64 := by
    have htake (b : List UInt8) (hb : b.length = 64) :
        (fill b start stop).take stop = b.take start ++ List.replicate (stop - start) 0 := by
      have := @take_write b start (List.replicate (stop - start) 0) (by omega)
      rwa [List.length_replicate, Nat.add_sub_cancel' hle] at this
    refine ⟨by rw [htake _ hb, htake _ hb', hsame], ?_⟩
    rw [fill, length_write (by rw [List.length_replicate, hb]; omega), hb]
  obtain ⟨hm, hl⟩ := hmark s hs
  obtain ⟨hm', hl'⟩ := hmark o ho
  have hh : s.h = o.h := congrArg Content.h h
  have ht : s.total = o.total := congrArg Content.total h
  have hlast (buf buf' : List UInt8) (hb : buf.length = 64) (hb' : buf'.length = 64)
    (hsame : buf.take 56 = buf'.take 56)
      (n : ℕ) : write buf 56 (le 8 n).reverse = write buf' 56 (le 8 n).reverse := by
    rw [write, write, hsame, List.length_reverse, length_le, List.drop_eq_nil_of_le hb.le,
      List.drop_eq_nil_of_le hb'.le]
  rw [← h, ← hlen] at hm'
  have hmarked := hm.trans hm'.symm
  rw [finalize, finalize, if_neg (by omega), if_neg (by omega), hlen, ht, hh]
  rw [hlen] at hmarked hl
  dsimp only
  by_cases hlong : 56 < o.buf_len + 1
  · obtain ⟨hsame, hfull⟩ := hfill _ _ (o.buf_len + 1) 64 hl hl' (by omega) le_rfl hmarked
    obtain ⟨-, hfull'⟩ := hfill _ _ (o.buf_len + 1) 64 hl' hl' (by omega) le_rfl rfl
    rw [List.take_of_length_le hfull.le, List.take_of_length_le hfull'.le] at hsame
    rw [if_pos hlong, if_pos hlong, hsame]
  · obtain ⟨hsame, hfull⟩ := hfill _ _ (o.buf_len + 1) 56 hl hl' (by omega) (by decide) hmarked
    obtain ⟨-, hfull'⟩ := hfill _ _ (o.buf_len + 1) 56 hl' hl' (by omega) (by decide) rfl
    rw [if_neg hlong, if_neg hlong]
    rw [hlast _ _ hfull hfull' hsame]

end ShaState

end AvilaNode
