import AvilaNode.BitStrings
import AvilaNode.Gcs

/-! A block's filter matches the queries that hash to the value of one of its scripts, and no others. -/

namespace AvilaNode.Gcs

open BitStrings ByteReader

structure BitReader where
  data : List UInt8
  pos : ℕ

def read_bits (data : List UInt8) : ℕ → ℕ → ℕ → ℕ
  | 0, _, v => v
  | nbits + 1, pos, v => read_bits data nbits (pos + 1) (v * 2 + (data.getD (pos / 8) 0).toNat >>> (7 - pos % 8) % 2)

def BitReader.read (r : BitReader) (nbits : ℕ) : Option (ℕ × BitReader) :=
  if r.data.length * 8 < r.pos + nbits then none
  else some (read_bits r.data nbits r.pos 0, { r with pos := r.pos + nbits })

def read_ones : ℕ → BitReader → ℕ → Option (ℕ × BitReader)
  | 0, _, _ => none
  | fuel + 1, r, q =>
    match r.read 1 with
    | none => none
    | some (bit, r) => if bit = 1 then read_ones fuel r (q + 1) else some (q, r)

def gr_decode (r : BitReader) (p : ℕ) : Option (ℕ × BitReader) :=
  match read_ones (r.data.length * 8 + 1) r 0 with
  | none => none
  | some (q, r) =>
    match r.read p with
    | none => none
    | some (remainder, r) => some (q <<< p + remainder, r)

def advance (value : ℕ) : List ℕ → Bool × List ℕ
  | [] => (false, [])
  | q :: queries =>
    if q = value then (true, q :: queries)
    else if value < q then (false, q :: queries)
    else advance value queries

def match_loop : ℕ → BitReader → ℕ → List ℕ → Option Bool
  | 0, _, _, _ => some false
  | n + 1, r, value, queries =>
    match gr_decode r BASIC_P with
    | none => none
    | some (delta, r) =>
      if 2 ^ 64 ≤ value + delta then none
      else
        match advance (value + delta) queries with
        | (true, _) => some true
        | (false, []) => some false
        | (false, q :: queries) => match_loop n r (value + delta) (q :: queries)

def filter_match_any (encoded : List UInt8) (block_hash : BlockHash) (queries : List Script) : Option Bool :=
  match Decoder.read_compact_size encoded with
  | .error _ => none
  | .ok (n, data) =>
    if 2 ^ 32 - 1 < n then none
    else
      let (k0, k1) := filter_keys block_hash
      let qhashes := (queries.map fun q => hash_to_range q k0 k1 (n * BASIC_M)).insertionSort (· ≤ ·)
      if qhashes.isEmpty then some false else match_loop n ⟨data, 0⟩ 0 qhashes

structure Writes (w : BitWriter) (bits : List Bool) : Prop where
  used : w.used = bits.length % 8
  length : w.out.length = (bits.length + 7) / 8
  bits : ∀ i, bit_at w.out i = bits.getD i false

theorem Writes.nil : Writes ⟨[], 0⟩ [] where
  used := rfl
  length := rfl
  bits i := by simp [bit_at]

theorem getD_append_singleton (bits : List Bool) (bit : Bool) (i : ℕ) :
    (bits ++ [bit]).getD i false = (decide (i = bits.length) && bit || bits.getD i false) := by
  rcases lt_trichotomy i bits.length with h | rfl | h
  · rw [List.getD_append _ _ _ _ h, decide_eq_false (by omega), Bool.false_and, Bool.false_or]
  · rw [List.getD_append_right _ _ _ _ le_rfl, Nat.sub_self, decide_eq_true rfl, List.getD_eq_default _ _ le_rfl]
    simp
  · rw [List.getD_append_right _ _ _ _ h.le, decide_eq_false (by omega), List.getD_eq_default bits _ h.le,
      List.getD_eq_default _ _ (by simp; omega)]
    rfl

variable {w : BitWriter} {bits rest : List Bool}

theorem Writes.write_bit (h : Writes w bits) (bit : Bool) : Writes (w.write_bit bit) (bits ++ [bit]) := by
  obtain ⟨hused, hlength, hbits⟩ := h
  have hgrown : ∃ out, (if w.used = 0 then w.out ++ [0] else w.out) = out ∧ out.length = bits.length / 8 + 1
      ∧ ∀ i, bit_at out i = bits.getD i false := by
    refine ⟨_, rfl, ?_⟩
    split
    · refine ⟨by rw [List.length_append, List.length_singleton]; omega, fun i => ?_⟩
      rw [bit_at_append_zero, hbits]
    · exact ⟨by omega, hbits⟩
  obtain ⟨out, hout, hlen, hold⟩ := hgrown
  have hlast : out.length - 1 = bits.length / 8 := by omega
  have hsplit : 8 * (bits.length / 8) + bits.length % 8 = bits.length := by omega
  rw [BitWriter.write_bit, hout, hlast, hused]
  cases bit with
  | false =>
    refine ⟨?_, ?_, fun i => ?_⟩
    · rw [List.length_append, List.length_singleton, Nat.mod_add_mod]
    · rw [if_neg (by simp), hlen, List.length_append, List.length_singleton]
      omega
    · rw [if_neg (by simp), hold, getD_append_singleton, Bool.and_false, Bool.false_or]
  | true =>
    refine ⟨?_, ?_, fun i => ?_⟩
    · rw [List.length_append, List.length_singleton, Nat.mod_add_mod]
    · rw [if_pos rfl, List.length_set, hlen, List.length_append, List.length_singleton]
      omega
    · rw [if_pos rfl, bit_at_set (by omega) (Nat.mod_lt _ (by norm_num)), hold, getD_append_singleton, Bool.and_true,
        hsplit]

theorem Writes.write (h : Writes w bits) (data nbits : ℕ) :
    Writes (w.write data nbits) (bits ++ word_bits data nbits) := by
  have hfold : ∀ (is : List ℕ) {w : BitWriter} {bits : List Bool}, Writes w bits →
      Writes (is.foldl (fun w i => w.write_bit (data.testBit i)) w) (bits ++ is.map data.testBit) := by
    intro is
    induction is with
    | nil => exact fun h => by simpa using h
    | cons i is ih =>
      intro w bits h
      have := ih (h.write_bit (data.testBit i))
      rwa [List.append_assoc, List.singleton_append, ← List.map_cons] at this
  have := hfold (List.range nbits).reverse h
  rwa [range_reverse_map] at this

theorem word_bits_ones {n : ℕ} (h : n ≤ 64) : word_bits (2 ^ 64 - 1) n = List.replicate n true := by
  induction n with
  | zero => rfl
  | succ n ih => rw [word_bits, ih (by omega), Nat.testBit_two_pow_sub_one, decide_eq_true (by omega),
    List.replicate_succ]

theorem Writes.ones {fuel q : ℕ} (h : Writes w bits) (hq : q ≤ fuel) :
    Writes (write_ones w fuel q) (bits ++ List.replicate q true) := by
  induction fuel generalizing q w bits with
  | zero =>
    rw [Nat.le_zero.mp hq, write_ones]
    simpa using h
  | succ fuel ih =>
    rw [write_ones]
    split
    · have hmin : min q 64 ≤ q := min_le_left _ _
      have hstep := h.write (2 ^ 64 - 1) (min q 64)
      rw [word_bits_ones (min_le_right _ _)] at hstep
      have := ih hstep (q := q - min q 64) (by omega)
      rwa [List.append_assoc, List.replicate_append_replicate, Nat.add_sub_cancel' hmin] at this
    · rw [show q = 0 by omega]
      simpa using h

def gr_bits (p x : ℕ) : List Bool := List.replicate (x >>> p) true ++ ([false] ++ word_bits x p)

theorem Writes.gr_encode (h : Writes w bits) (p x : ℕ) : Writes (gr_encode w p x) (bits ++ gr_bits p x) := by
  have := ((h.ones (le_refl (x >>> p))).write 0 1).write x p
  rwa [List.append_assoc, List.append_assoc] at this

def delta_bits : ℕ → List ℕ → List Bool
  | _, [] => []
  | last, v :: hashed => gr_bits BASIC_P (v - last) ++ delta_bits v hashed

theorem Writes.encode_deltas (h : Writes w bits) (last : ℕ) (hashed : List ℕ) :
    Writes (encode_deltas w last hashed) (bits ++ delta_bits last hashed) := by
  induction hashed generalizing w bits last with
  | nil => simpa [delta_bits, Gcs.encode_deltas] using h
  | cons v hashed ih =>
    have := ih (h.gr_encode BASIC_P (v - last)) v
    rwa [List.append_assoc] at this

theorem Writes.ahead (h : Writes w bits) : Ahead w.out 0 bits where
  fits := by
    rw [h.length]
    omega
  bits i _ := by rw [Nat.zero_add, h.bits]

theorem read_bits_eq {data : List UInt8} {pos : ℕ} (h : Ahead data pos bits) (v : ℕ) :
    read_bits data bits.length pos v = bits.foldl (fun value bit => value * 2 + bit.toNat) v := by
  induction bits generalizing pos v with
  | nil => rfl
  | cons bit bits ih =>
    have hbit : (data.getD (pos / 8) 0).toNat >>> (7 - pos % 8) % 2 = bit.toNat := by
      have := h.bits 0 (by simp)
      rw [Nat.add_zero, List.getD_cons_zero] at this
      rw [← this, bit_at, Nat.toNat_testBit, Nat.shiftRight_eq_div_pow]
    rw [List.length_cons, read_bits, hbit, List.foldl_cons]
    exact ih (@Ahead.right data [bit] bits pos h) _

theorem BitReader.read_ahead {r : BitReader} {bits rest : List Bool} (h : Ahead r.data r.pos (bits ++ rest)) :
    r.read bits.length = some (word bits, { r with pos := r.pos + bits.length }) := by
  have hfits := h.left.fits
  rw [BitReader.read, if_neg (by omega), read_bits_eq h.left]
  rfl

theorem read_ones_ahead {fuel q : ℕ} {r : BitReader} (count : ℕ)
    (h : Ahead r.data r.pos (List.replicate q true ++ ([false] ++ rest))) (hfuel : q < fuel) :
    read_ones fuel r count = some (count + q, { r with pos := r.pos + q + 1 }) := by
  induction fuel generalizing q r count with
  | zero => omega
  | succ fuel ih =>
    rw [read_ones]
    cases q with
    | zero =>
      have hread : r.read 1 = some (0, { r with pos := r.pos + 1 }) := @BitReader.read_ahead r [false] rest h
      rw [hread]
      rfl
    | succ q =>
      have hread : r.read 1 = some (1, { r with pos := r.pos + 1 }) :=
        @BitReader.read_ahead r [true] (List.replicate q true ++ ([false] ++ rest)) h
      have hrest := @Ahead.right r.data [true] (List.replicate q true ++ ([false] ++ rest)) r.pos h
      rw [hread]
      dsimp only
      rw [if_pos rfl, @ih q { r with pos := r.pos + 1 } (count + 1) hrest (by omega)]
      have hcount : count + 1 + q = count + (q + 1) := by omega
      have hpos : r.pos + 1 + q + 1 = r.pos + (q + 1) + 1 := by omega
      rw [hcount, hpos]

theorem gr_decode_ahead {r : BitReader} {p x : ℕ} (h : Ahead r.data r.pos (gr_bits p x ++ rest)) :
    ∃ pos, gr_decode r p = some (x, { r with pos }) ∧ Ahead r.data pos rest := by
  have hones : Ahead r.data r.pos (List.replicate (x >>> p) true ++ ([false] ++ (word_bits x p ++ rest))) := by
    simpa only [gr_bits, List.append_assoc] using h
  have hfits := hones.left.fits
  rw [List.length_replicate] at hfits
  have hword := hones.right.right
  rw [List.length_replicate, List.length_singleton] at hword
  have hvalue : (x >>> p) <<< p + x % 2 ^ p = x := by
    rw [Nat.shiftLeft_eq, Nat.shiftRight_eq_div_pow]
    exact Nat.div_add_mod' x _
  have hread := @BitReader.read_ahead { r with pos := r.pos + x >>> p + 1 } (word_bits x p) rest hword
  have htail := hword.right
  rw [length_word_bits] at hread htail
  refine ⟨r.pos + x >>> p + 1 + p, ?_, htail⟩
  rw [gr_decode, read_ones_ahead 0 hones (by omega), Nat.zero_add]
  dsimp only
  rw [hread]
  dsimp only
  rw [word_word_bits, hvalue]

theorem advance_spec {value : ℕ} {queries : List ℕ} (hs : queries.Pairwise (· ≤ ·)) :
    ((advance value queries).1 = true ↔ value ∈ queries)
      ∧ (value ∉ queries → (advance value queries).2.Pairwise (· ≤ ·)
        ∧ ∀ q, q ∈ (advance value queries).2 ↔ q ∈ queries ∧ value < q) := by
  induction queries with
  | nil => simp [advance]
  | cons q queries ih =>
    obtain ⟨hhead, htail⟩ := List.pairwise_cons.mp hs
    rw [advance]
    split
    · rename_i heq
      exact ⟨by simp [heq], fun h => absurd (by simp [heq]) h⟩
    rename_i hne
    split
    · rename_i hlt
      have habsent : value ∉ q :: queries := by
        intro hmem
        rcases List.mem_cons.mp hmem with heq | hmem
        · exact hne heq.symm
        · have := hhead value hmem
          omega
      refine ⟨by simp [habsent], fun _ => ⟨hs, fun a => ⟨fun ha => ⟨ha, ?_⟩, And.left⟩⟩⟩
      rcases List.mem_cons.mp ha with rfl | ha
      · exact hlt
      · exact hlt.trans_le (hhead a ha)
    · rename_i hge
      obtain ⟨hfound, hrest⟩ := ih htail
      have hmem : value ∈ q :: queries ↔ value ∈ queries := by
        rw [List.mem_cons]
        exact ⟨fun h => h.resolve_left (Ne.symm hne), Or.inr⟩
      refine ⟨hfound.trans hmem.symm, fun habsent => ?_⟩
      obtain ⟨hsorted, hiff⟩ := hrest fun h => habsent (hmem.mpr h)
      refine ⟨hsorted, fun a => (hiff a).trans ?_⟩
      rw [List.mem_cons]
      constructor
      · exact fun h => ⟨Or.inr h.1, h.2⟩
      · rintro ⟨rfl | ha, hlt⟩
        · exact absurd hlt hge
        · exact ⟨ha, hlt⟩

theorem match_loop_ahead {hashed queries : List ℕ} {r : BitReader} {value : ℕ} {rest : List Bool}
    (h : Ahead r.data r.pos (delta_bits value hashed ++ rest)) (hs : hashed.Pairwise (· ≤ ·))
    (hge : ∀ v ∈ hashed, value ≤ v) (hlt : ∀ v ∈ hashed, v < 2 ^ 64) (hq : queries.Pairwise (· ≤ ·)) :
    match_loop hashed.length r value queries = some (decide (∃ q ∈ queries, q ∈ hashed)) := by
  induction hashed generalizing r value queries with
  | nil => simp [match_loop]
  | cons v hashed ih =>
    obtain ⟨hhead, htail⟩ := List.pairwise_cons.mp hs
    have hvalue : value + (v - value) = v := Nat.add_sub_cancel' (hge v List.mem_cons_self)
    rw [delta_bits, List.append_assoc] at h
    obtain ⟨pos, hdecode, hahead⟩ := gr_decode_ahead h
    rw [List.length_cons, match_loop, hdecode]
    dsimp only
    rw [hvalue, if_neg (not_le.mpr (hlt v List.mem_cons_self))]
    obtain ⟨hfound, hleft⟩ := @advance_spec v queries hq
    rcases hadv : advance v queries with ⟨found, left⟩
    rw [hadv] at hfound hleft
    by_cases hv : v ∈ queries
    · have hyes : ∃ q ∈ queries, q ∈ v :: hashed := ⟨v, hv, List.mem_cons_self⟩
      rw [decide_eq_true hyes, show found = true from hfound.mpr hv]
    obtain ⟨hsorted, hiff⟩ := hleft hv
    -- A query at or below `v` is at no later value either.
    have hsame : (∃ q ∈ queries, q ∈ v :: hashed) ↔ ∃ q ∈ left, q ∈ hashed := by
      constructor
      · rintro ⟨q, hmem, hin⟩
        rcases List.mem_cons.mp hin with rfl | hin
        · exact absurd hmem hv
        · have hne : q ≠ v := fun he => hv (he ▸ hmem)
          have hle := hhead q hin
          exact ⟨q, (hiff q).mpr ⟨hmem, by omega⟩, hin⟩
      · rintro ⟨q, hmem, hin⟩
        exact ⟨q, ((hiff q).mp hmem).1, List.mem_cons_of_mem _ hin⟩
    rw [decide_eq_decide.mpr hsame, show found = false from Bool.eq_false_iff.mpr fun ht => hv (hfound.mp ht)]
    cases left with
    | nil => simp
    | cons q left =>
      exact @ih (q :: left) { r with pos } v hahead htail hhead
        (fun u hu => hlt u (List.mem_cons_of_mem _ hu)) hsorted

section

variable [Platform]

def filter_value (block : Block) (undo : BlockUndo) (script : Script) : ℕ :=
  hash_to_range script (filter_keys block.block_hash).1 (filter_keys block.block_hash).2
    ((basic_elements block undo).length * BASIC_M)

/-- The filter of a block matches a list of queries when one of them has the value of a script of the block, so it
misses none of the block's scripts. -/
theorem filter_match_exact (block : Block) (undo : BlockUndo) (hn : (basic_elements block undo).length ≤ MAX_SIZE)
    (queries : List Script) :
    filter_match_any (build_basic block undo) block.block_hash queries
        = some (decide (∃ q ∈ queries, ∃ e ∈ basic_elements block undo,
          filter_value block undo q = filter_value block undo e))
      ∧ ∀ q ∈ queries, q ∈ basic_elements block undo →
        filter_match_any (build_basic block undo) block.block_hash queries = some true := by
  have hexact : filter_match_any (build_basic block undo) block.block_hash queries
      = some (decide (∃ q ∈ queries, ∃ e ∈ basic_elements block undo,
        filter_value block undo q = filter_value block undo e)) := by
    let values : List Script → List ℕ := fun scripts => (scripts.map (filter_value block undo)).insertionSort (· ≤ ·)
    have hlen : (values (basic_elements block undo)).length = (basic_elements block undo).length := by
      simp [values]
    have hmem : ∀ {scripts : List Script} {v : ℕ}, v ∈ values scripts ↔
      ∃ s ∈ scripts, filter_value block undo s = v := by
      intro scripts v
      rw [List.mem_insertionSort, List.mem_map]
    have hbuild : build_basic block undo = write_compact_size (basic_elements block undo).length
        ++ (encode_deltas ⟨[], 0⟩ 0 (values (basic_elements block undo))).out := by
      rw [← hlen]
      rfl
    have hread := Decoder.read_compact_size_inverts.read_write
      (encode_deltas ⟨[], 0⟩ 0 (values (basic_elements block undo))).out hn
    have hahead := (Writes.nil.encode_deltas 0 (values (basic_elements block undo))).ahead
    have hlt : ∀ v ∈ values (basic_elements block undo), v < 2 ^ 64 := by
      intro v hv
      obtain ⟨e, -, rfl⟩ := hmem.mp hv
      have hle : filter_value block undo e ≤ (basic_elements block undo).length * BASIC_M := fast_range64_le _ _
      rw [MAX_SIZE] at hn
      rw [BASIC_M] at hle
      omega
    have hloop := @match_loop_ahead (values (basic_elements block undo)) (values queries) ⟨_, 0⟩ 0 []
      (by simpa using hahead) (List.pairwise_insertionSort _ _) (fun _ _ => Nat.zero_le _) hlt
      (List.pairwise_insertionSort _ _)
    have hsame : (∃ q ∈ values queries, q ∈ values (basic_elements block undo)) ↔ ∃ q ∈ queries,
        ∃ e ∈ basic_elements block undo, filter_value block undo q = filter_value block undo e := by
      simp only [hmem]
      constructor
      · rintro ⟨v, ⟨q, hq, rfl⟩, e, he, heq⟩
        exact ⟨q, hq, e, he, heq.symm⟩
      · rintro ⟨q, hq, e, he, heq⟩
        exact ⟨_, ⟨q, hq, rfl⟩, e, he, heq.symm⟩
    rw [hlen, decide_eq_decide.mpr hsame] at hloop
    rw [hbuild, filter_match_any, hread]
    dsimp only
    rw [if_neg (by rw [MAX_SIZE] at hn; omega)]
    split
    · rename_i hempty
      rw [List.isEmpty_iff_length_eq_zero, List.length_insertionSort, List.length_map] at hempty
      simp [List.length_eq_zero_iff.mp hempty]
    · exact hloop
  refine ⟨hexact, fun q hq he => ?_⟩
  rw [hexact, decide_eq_true ⟨q, hq, q, he, rfl⟩]

end

section

attribute [local instance] Platform.sample

def sample_filter_block : Block := ⟨sample_header 1 2 7, [⟨1, [], [⟨5, [0x51]⟩, ⟨6, [0x52, 0x53]⟩], 0⟩]⟩

theorem filter_match_exact_sample :
    filter_match_any (build_basic sample_filter_block ⟨[]⟩) sample_filter_block.block_hash [[0x52, 0x53]] =
      some true :=
  (filter_match_exact sample_filter_block ⟨[]⟩ (by decide) [[0x52, 0x53]]).2 [0x52, 0x53] (by simp)
    (by decide)

end

end AvilaNode.Gcs
