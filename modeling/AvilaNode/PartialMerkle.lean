import AvilaNode.PositionalTree
import AvilaNode.TransactionCodec

/-! Partial merkle trees: the proof that a block's root commits to the matched transactions. -/

namespace AvilaNode

open ByteReader ByteStrings Decoder MerkleTree

structure PartialMerkleTree where
  num_transactions : ℕ
  hashes : List Hash256
  bits : List Bool
  bad : Bool
deriving DecidableEq

namespace PartialMerkleTree

def width_of (num_transactions height : ℕ) : ℕ := (num_transactions + (1 <<< height) - 1) >>> height

def climb (num_transactions : ℕ) : ℕ → ℕ → ℕ
  | 0, height => height
  | fuel + 1, height =>
    if 1 < width_of num_transactions height then climb num_transactions fuel (height + 1) else height

def tree_height (num_transactions : ℕ) : ℕ := climb num_transactions 32 0

def span (num_transactions height pos : ℕ) : List ℕ :=
  List.range' (pos <<< height) (min ((pos + 1) <<< height) num_transactions - pos <<< height)

section

variable [Platform]

def calc_hash (txids : List Hash256) (num_tx : ℕ) : ℕ → ℕ → Hash256
  | 0, pos => txids.getD pos 0
  | height + 1, pos =>
    let left := calc_hash txids num_tx height (pos * 2)
    let right := if pos * 2 + 1 < width_of num_tx height then calc_hash txids num_tx height (pos * 2 + 1) else left
    hash_merkle_pair left right

def parent_of_match (num_transactions : ℕ) (matches_ : List Bool) (height pos : ℕ) : Bool :=
  (span num_transactions height pos).any fun p => matches_.getD p false

def store (txids : List Hash256) (height pos : ℕ) (tree : PartialMerkleTree) : PartialMerkleTree :=
  { tree with hashes := tree.hashes ++ [calc_hash txids tree.num_transactions height pos] }

def traverse_build (txids : List Hash256) (matches_ : List Bool) : ℕ → ℕ → PartialMerkleTree → PartialMerkleTree
  | 0, pos, tree =>
    let flag := parent_of_match tree.num_transactions matches_ 0 pos
    store txids 0 pos { tree with bits := tree.bits ++ [flag] }
  | height + 1, pos, tree =>
    let flag := parent_of_match tree.num_transactions matches_ (height + 1) pos
    let tree := { tree with bits := tree.bits ++ [flag] }
    if !flag then store txids (height + 1) pos tree
    else
      let tree := traverse_build txids matches_ height (pos * 2) tree
      if pos * 2 + 1 < width_of tree.num_transactions height then
        traverse_build txids matches_ height (pos * 2 + 1) tree
      else tree

def build (txids : List Hash256) (matches_ : List Bool) : PartialMerkleTree :=
  traverse_build txids matches_ (tree_height txids.length) 0 ⟨txids.length, [], [], false⟩

structure Walk where
  bad : Bool
  bits_used : ℕ
  hash_used : ℕ
  matched : List (Hash256 × ℕ)

def cut (tree : PartialMerkleTree) (leaf : Bool) (pos : ℕ) (w : Walk) : Hash256 × Walk :=
  match tree.hashes[w.hash_used]? with
  | none => (0, { w with bad := true })
  | some hash =>
    (hash, { w with
      hash_used := w.hash_used + 1
      matched := if leaf then w.matched ++ [(hash, pos)] else w.matched })

def traverse_extract (tree : PartialMerkleTree) : ℕ → ℕ → Walk → Hash256 × Walk
  | 0, pos, w =>
    match tree.bits[w.bits_used]? with
    | none => (0, { w with bad := true })
    | some flag => tree.cut flag pos { w with bits_used := w.bits_used + 1 }
  | height + 1, pos, w =>
    match tree.bits[w.bits_used]? with
    | none => (0, { w with bad := true })
    | some false => tree.cut false pos { w with bits_used := w.bits_used + 1 }
    | some true =>
      let (left, w) := traverse_extract tree height (pos * 2) { w with bits_used := w.bits_used + 1 }
      if pos * 2 + 1 < width_of tree.num_transactions height then
        let (right, w) := traverse_extract tree height (pos * 2 + 1) w
        -- transaction hashes are unique, so siblings never are equal
        (hash_merkle_pair left right, { w with bad := w.bad || right == left })
      else (hash_merkle_pair left left, w)

def extract (tree : PartialMerkleTree) : Option (Hash256 × List (Hash256 × ℕ)) :=
  if tree.num_transactions = 0 then none
  else if 4000000 / 60 < tree.num_transactions then none
  else if tree.num_transactions < tree.hashes.length then none
  else if tree.bits.length < tree.hashes.length then none
  else
    let (root, w) := traverse_extract tree (tree_height tree.num_transactions) 0 ⟨tree.bad, 0, 0, []⟩
    if w.bad then none
    else if (w.bits_used + 7) / 8 ≠ (tree.bits.length + 7) / 8 then none
    else if w.hash_used ≠ tree.hashes.length then none
    else some (root, w.matched)

end

def packed_bits (bits : List Bool) : List UInt8 :=
  (List.range ((bits.length + 7) / 8)).map fun i =>
    (List.range 8).foldl (fun byte shift =>
      if bits.getD (8 * i + shift) false then byte ||| (1 <<< UInt8.ofNat shift) else byte) 0

def unpacked_bits (byte : UInt8) : List Bool :=
  (List.range 8).map fun shift => (byte >>> UInt8.ofNat shift) &&& 1 == 1

def encode (tree : PartialMerkleTree) : List UInt8 :=
  le 4 tree.num_transactions
    ++ write_compact_size tree.hashes.length ++ tree.hashes.flatMap Hash256.to_bytes
    ++ write_compact_size (packed_bits tree.bits).length ++ packed_bits tree.bits

def decode (bytes : List UInt8) : Option (PartialMerkleTree × List UInt8) := do
  let (num_transactions, bytes) ← (read_u32_le bytes).toOption
  let (n_hashes, bytes) ← (read_compact_size bytes).toOption
  if num_transactions < n_hashes then none
  else
    let (hashes, bytes) ← (repeated read_hash n_hashes bytes).toOption
    let (n_bytes, bytes) ← (read_compact_size bytes).toOption
    let (packed, bytes) ← (repeated read_u8 n_bytes bytes).toOption
    some (⟨num_transactions, hashes, packed.flatMap unpacked_bits, false⟩, bytes)

theorem width_of_eq (num_transactions height : ℕ) : width_of num_transactions height =
    width num_transactions height := by
  simp [width_of, width, Nat.one_shiftLeft, Nat.shiftRight_eq_div_pow]

theorem climb_spec {n fuel height : ℕ} (h : ∀ k < height, 1 < width n k) :
    height ≤ climb n fuel height ∧ (∀ k < climb n fuel height, 1 < width n k) ∧
      (width n (climb n fuel height) ≤ 1 ∨ climb n fuel height = height + fuel) := by
  induction fuel generalizing height with
  | zero => exact ⟨le_refl _, h, .inr rfl⟩
  | succ fuel ih =>
    rw [climb, width_of_eq]
    split
    · rename_i hw
      obtain ⟨hl, hk, he⟩ := @ih (height + 1) fun k hk => by
        rcases Nat.lt_succ_iff_lt_or_eq.mp hk with hk | rfl
        · exact h k hk
        · exact hw
      exact ⟨by omega, hk, he.imp_right fun he => by omega⟩
    · exact ⟨le_refl _, h, .inl (by omega)⟩

theorem tree_height_spec {n : ℕ} (hn : n ≠ 0) (hl : n ≤ 2 ^ 32) :
    width n (tree_height n) = 1 ∧ ∀ k < tree_height n, 1 < width n k := by
  obtain ⟨-, hk, he⟩ := @climb_spec n 32 0 (by simp)
  refine ⟨?_, hk⟩
  have hpos : 0 < width n (tree_height n) := lt_width.mpr (by omega)
  have hle : width n (tree_height n) ≤ 1 := by
    rcases he with he | he
    · exact he
    have hw : ¬ 1 < width n 32 := by
      rw [lt_width]
      omega
    rw [tree_height, he, Nat.zero_add]
    omega
  omega

variable (f : ℕ → Bool)

theorem unpacked_byte : unpacked_bits ((List.range 8).foldl (fun byte shift =>
    if f shift then byte ||| (1 <<< UInt8.ofNat shift) else byte) 0) = (List.range 8).map f := by
  simp only [List.range_succ, List.range_zero, List.nil_append, List.foldl_append, List.foldl_cons, List.foldl_nil,
    List.map_append, List.map_cons, List.map_nil]
  generalize f 0 = b₀, f 1 = b₁, f 2 = b₂, f 3 = b₃, f 4 = b₄, f 5 = b₅, f 6 = b₆, f 7 = b₇
  revert b₀ b₁ b₂ b₃ b₄ b₅ b₆ b₇
  decide +kernel

theorem bytes_of_bits (count : ℕ) : ((List.range count).flatMap fun i =>
    (List.range 8).map fun shift => f (8 * i + shift)) = (List.range (8 * count)).map f := by
  induction count with
  | zero => rfl
  | succ count ih =>
    rw [@List.range_succ count, List.flatMap_append, ih, Nat.mul_succ, List.range_add, List.map_append,
      List.flatMap_cons,
      List.flatMap_nil, List.append_nil, List.map_map]
    rfl

theorem unpacked_packed (bits : List Bool) : ∃ padding, (packed_bits bits).flatMap unpacked_bits = bits ++ padding ∧
    (bits ++ padding).length = 8 * ((bits.length + 7) / 8) := by
  have hall : (packed_bits bits).flatMap unpacked_bits =
      (List.range (8 * ((bits.length + 7) / 8))).map fun i => bits.getD i false := by
    rw [packed_bits, List.flatMap_map, ← bytes_of_bits]
    apply List.flatMap_congr
    intro i _
    exact unpacked_byte fun shift => bits.getD (8 * i + shift) false
  have hprefix : bits <+: (List.range (8 * ((bits.length + 7) / 8))).map fun i => bits.getD i false := by
    rw [List.prefix_iff_getElem?]
    intro i hi
    have hlt : i < 8 * ((bits.length + 7) / 8) := by omega
    simp [hlt, hi]
  obtain ⟨padding, hp⟩ := hprefix
  exact ⟨padding, by rw [hall, hp], by rw [hp]; simp⟩

theorem decode_encode {tree : PartialMerkleTree} (hn : tree.num_transactions < 2 ^ 32)
    (hh : tree.hashes.length ≤ tree.num_transactions) (hs : tree.hashes.length ≤ MAX_SIZE)
    (hb : (tree.bits.length + 7) / 8 ≤ MAX_SIZE) (bytes : List UInt8) :
    ∃ padding, decode (tree.encode ++ bytes) =
        some (⟨tree.num_transactions, tree.hashes, tree.bits ++ padding, false⟩, bytes) ∧
      (tree.bits ++ padding).length = 8 * ((tree.bits.length + 7) / 8) := by
  obtain ⟨padding, hp, hl⟩ := unpacked_packed tree.bits
  refine ⟨padding, ?_, hl⟩
  have hlen : (packed_bits tree.bits).length ≤ MAX_SIZE := by simpa [packed_bits] using hb
  have hbytes : (packed_bits tree.bits).flatMap (fun byte => [byte]) = packed_bits tree.bits := by simp
  unfold encode decode
  simp only [List.append_assoc]
  rw [read_u32_le_inverts.read_write _ hn]
  simp only [Except.toOption, Option.bind_eq_bind, Option.bind_some]
  rw [read_compact_size_inverts.read_write _ hs]
  simp only [Option.bind_some]
  rw [if_neg (by omega), (read_hash_inverts.repeated tree.hashes.length).read_write _ ⟨rfl, fun _ _ => trivial⟩]
  simp only [Option.bind_some]
  rw [read_compact_size_inverts.read_write _ hlen]
  simp only [Option.bind_some]
  have hread := (read_u8_inverts.repeated (packed_bits tree.bits).length).read_write bytes
    (a := packed_bits tree.bits) ⟨rfl, fun _ _ => trivial⟩
  rw [hbytes] at hread
  rw [hread]
  simp only [Option.bind_some, hp]

section

variable [Platform]

def leaf_at (txids : List Hash256) (i : ℕ) : Hash256 := txids.getD i 0

theorem calc_hash_eq (txids : List Hash256) (n height pos : ℕ) :
    calc_hash txids n height pos = node hash_pair (leaf_at txids) n height pos := by
  induction height generalizing pos with
  | zero => rfl
  | succ height ih =>
    rw [calc_hash, node, ih, ih, width_of_eq]
    rfl

theorem level_zero (txids : List Hash256) : level hash_pair (leaf_at txids) txids.length 0 = txids := by
  apply List.ext_getElem
  · simp
  · intro i hi hi'
    simp [level, node, leaf_at, hi']

theorem merkle_levels_node (leaf : ℕ → Hash256) {n top : ℕ} (htop : width n top = 1)
    (habove : ∀ k < top, 1 < width n k) {fuel height : ℕ} (hh : height ≤ top) (hf : width n height ≤ fuel + 1)
    (mutated : Bool) :
    (merkle_levels fuel (level hash_pair leaf n height) mutated).1 = node hash_pair leaf n top 0 ∧
      ∀ k, height ≤ k → k < top → ∀ pos < width n (k + 1),
        merkle_input (children hash_pair leaf n k pos) ∈ merkle_inputs fuel (level hash_pair leaf n height) := by
  induction fuel generalizing height mutated with
  | zero =>
    obtain rfl : height = top := by
      by_contra hne
      have := habove height (by omega)
      omega
    refine ⟨?_, fun k hk hk' => by omega⟩
    simp [merkle_levels, level, htop]
  | succ fuel ih =>
    rw [merkle_levels, merkle_inputs, length_level, merkle_level_eq, level_succ]
    by_cases hlt : height < top
    · have hw := width_succ n height
      have habove' := habove height hlt
      rw [if_pos habove', if_pos habove']
      obtain ⟨hroot, hin⟩ :=
        @ih (height + 1) hlt (by omega) (mutated || adjacent_equal (level hash_pair leaf n height))
      refine ⟨hroot, fun k hk hk' pos hp => ?_⟩
      rcases Nat.eq_or_lt_of_le hk with rfl | hk
      · apply List.mem_append_left
        rw [pairs_level, List.map_map]
        exact List.mem_map.mpr ⟨pos, List.mem_range.mpr hp, rfl⟩
      · exact List.mem_append_right _ (hin k hk hk' pos hp)
    · obtain rfl : height = top := by omega
      rw [if_neg (by omega)]
      refine ⟨?_, fun k hk hk' => by omega⟩
      simp [level, htop]

theorem merkle_root_node {txids : List Hash256} (hne : txids ≠ []) (hl : txids.length ≤ 2 ^ 32) :
    (AvilaNode.merkle_root txids).1 = calc_hash txids txids.length (tree_height txids.length) 0 ∧
      ∀ k < tree_height txids.length, ∀ pos < width txids.length (k + 1),
        merkle_input (children hash_pair (leaf_at txids) txids.length k pos) ∈ hashed_inputs txids := by
  obtain ⟨htop, habove⟩ := tree_height_spec (fun h => hne (List.length_eq_zero_iff.mp h)) hl
  obtain ⟨hroot, hin⟩ := @merkle_levels_node _ (leaf_at txids) _ _ htop habove txids.length 0 (Nat.zero_le _)
    (by simp) false
  rw [level_zero] at hroot hin
  refine ⟨?_, fun k hk pos hp => hin k (Nat.zero_le _) hk pos hp⟩
  rw [calc_hash_eq]
  exact hroot

omit [Platform] in
theorem span_eq (n height pos : ℕ) :
    span n height pos = List.range' (pos * 2 ^ height) (min ((pos + 1) * 2 ^ height) n - pos * 2 ^ height) := by
  simp [span, Nat.shiftLeft_eq]

omit [Platform] in
theorem span_succ (n height pos : ℕ) :
    span n (height + 1) pos = span n height (pos * 2) ++ span n height (pos * 2 + 1) := by
  simp only [span_eq, pow_succ]
  generalize 2 ^ height = b
  have hs : pos * (b * 2) = pos * 2 * b := by ring
  have hm : (pos * 2 + 1) * b = pos * 2 * b + b := by ring
  have he : (pos + 1) * (b * 2) = pos * 2 * b + b + b := by ring
  have he' : (pos * 2 + 1 + 1) * b = pos * 2 * b + b + b := by ring
  rw [hs, hm, he, he']
  by_cases hn : n ≤ pos * 2 * b + b
  · rw [show min (pos * 2 * b + b + b) n - (pos * 2 * b + b) = 0 by omega,
      show min (pos * 2 * b + b + b) n = min (pos * 2 * b + b) n by omega]
    simp
  · rw [show min (pos * 2 * b + b) n - pos * 2 * b = b by omega, List.range'_append_1]
    congr 1
    omega

omit [Platform] in
theorem span_pos {n height pos : ℕ} (h : pos < width n height) : 0 < (span n height pos).length := by
  rw [lt_width] at h
  have hp : 0 < 2 ^ height := Nat.two_pow_pos height
  rw [span_eq, List.length_range', Nat.succ_mul]
  omega

omit [Platform] in
theorem span_nil {n height pos : ℕ} (h : ¬ pos < width n height) : span n height pos = [] := by
  rw [lt_width] at h
  rw [span_eq, show min ((pos + 1) * 2 ^ height) n - pos * 2 ^ height = 0 by omega]
  rfl

section

variable (txids : List Hash256) (matches_ : List Bool)

def flags : ℕ → ℕ → List Bool
  | 0, pos => [parent_of_match txids.length matches_ 0 pos]
  | height + 1, pos =>
    if parent_of_match txids.length matches_ (height + 1) pos then
      true :: (flags height (pos * 2)
        ++ if pos * 2 + 1 < width txids.length height then flags height (pos * 2 + 1) else [])
    else [false]

def cuts : ℕ → ℕ → List Hash256
  | 0, pos => [calc_hash txids txids.length 0 pos]
  | height + 1, pos =>
    if parent_of_match txids.length matches_ (height + 1) pos then
      cuts height (pos * 2) ++ if pos * 2 + 1 < width txids.length height then cuts height (pos * 2 + 1) else []
    else [calc_hash txids txids.length (height + 1) pos]

def found (height pos : ℕ) : List (Hash256 × ℕ) :=
  ((span txids.length height pos).filter fun i => matches_.getD i false).map fun i => (leaf_at txids i, i)

end

variable {txids : List Hash256} {matches_ : List Bool}

theorem traverse_build_eq (height pos : ℕ) (hashes : List Hash256) (bits : List Bool) (bad : Bool) :
    traverse_build txids matches_ height pos ⟨txids.length, hashes, bits, bad⟩ =
      ⟨txids.length, hashes ++ cuts txids matches_ height pos, bits ++ flags txids matches_ height pos, bad⟩ := by
  induction height generalizing pos hashes bits with
  | zero => rfl
  | succ height ih =>
    rw [traverse_build, flags, cuts]
    cases hflag : parent_of_match txids.length matches_ (height + 1) pos with
    | false => simp [store]
    | true =>
      rw [ih]
      simp only [Bool.not_true, Bool.false_eq_true, if_false, if_true, width_of_eq]
      split
      · rw [ih]
        simp
      · simp

theorem cuts_length (height pos : ℕ) (hpos : pos < width txids.length height) :
    (cuts txids matches_ height pos).length ≤ (flags txids matches_ height pos).length ∧
      (cuts txids matches_ height pos).length ≤ (span txids.length height pos).length ∧
      (flags txids matches_ height pos).length < 2 ^ (height + 1) := by
  induction height generalizing pos with
  | zero => exact ⟨le_refl _, span_pos hpos, by simp [flags]⟩
  | succ height ih =>
    obtain ⟨hl, hl', hl''⟩ := ih (pos * 2) (left_lt_width hpos)
    rw [cuts, flags]
    split
    · rw [span_succ, pow_succ]
      split
      · rename_i hright
        obtain ⟨hr, hr', hr''⟩ := ih (pos * 2 + 1) hright
        simp only [List.length_append, List.length_cons]
        omega
      · simp only [List.length_append, List.length_cons, List.length_nil]
        omega
    · refine ⟨le_refl _, span_pos hpos, ?_⟩
      have := @Nat.one_le_two_pow (height + 1)
      rw [pow_succ]
      simp only [List.length_singleton]
      omega

def Binding (txids : List Hash256) : Prop :=
  ∀ a ∈ hashed_inputs txids, ∀ b ∈ hashed_inputs txids, Platform.sha256d a = Platform.sha256d b → a = b

variable {height pos top : ℕ} {tree : PartialMerkleTree}

omit [Platform] in
theorem found_of_unmatched (h : parent_of_match txids.length matches_ height pos = false) :
    found txids matches_ height pos = [] := by
  unfold found
  rw [List.filter_eq_nil_iff.mpr]
  · rfl
  · intro i hi
    simpa using List.any_eq_false.mp h i hi

omit [Platform] in
theorem drop_append {α : Type} {l a b : List α} {i : ℕ} (h : l.drop i = a ++ b) : l.drop (i + a.length) = b := by
  rw [← List.drop_drop, h, List.drop_left]

omit [Platform] in
theorem next_of_drop {α : Type} {l rest : List α} {a : α} {i : ℕ} (h : l.drop i = a :: rest) :
    l[i]? = some a ∧ l.drop (i + 1) = rest :=
  ⟨by rw [← List.head?_drop, h]; rfl, @drop_append _ l [a] rest i h⟩

theorem traverse_extract_eq {tree : PartialMerkleTree} (ht : tree.num_transactions = txids.length) {top : ℕ}
    (hne : ∀ height < top, ∀ pos, pos * 2 + 1 < width txids.length height →
      calc_hash txids txids.length height (pos * 2 + 1) ≠ calc_hash txids txids.length height (pos * 2))
    {height pos : ℕ} (htop : height ≤ top) (hpos : pos < width txids.length height) {w : Walk}
    {bits : List Bool} {hashes : List Hash256}
    (hb : tree.bits.drop w.bits_used = flags txids matches_ height pos ++ bits)
    (hh : tree.hashes.drop w.hash_used = cuts txids matches_ height pos ++ hashes) :
    traverse_extract tree height pos w = (calc_hash txids txids.length height pos,
      { w with
        bits_used := w.bits_used + (flags txids matches_ height pos).length
        hash_used := w.hash_used + (cuts txids matches_ height pos).length
        matched := w.matched ++ found txids matches_ height pos }) := by
  induction height generalizing pos w bits hashes with
  | zero =>
    have hlt : pos < txids.length := by simpa using hpos
    have hspan : span txids.length 0 pos = [pos] := by
      rw [span_eq]
      simp [show min (pos + 1) txids.length - pos = 1 by omega]
    rw [traverse_extract, (next_of_drop hb).1]
    dsimp only
    rw [cut, (next_of_drop hh).1]
    simp only [flags, cuts, found, parent_of_match, hspan, List.any_cons, List.any_nil, Bool.or_false,
      List.length_singleton, List.filter_cons, List.filter_nil]
    cases matches_.getD pos false
    · simp
    · simp only [if_true, List.map_cons, List.map_nil]
      rfl
  | succ height ih =>
    rw [flags] at hb ⊢
    rw [cuts] at hh ⊢
    rw [traverse_extract]
    cases hflag : parent_of_match txids.length matches_ (height + 1) pos with
    | false =>
      rw [hflag] at hb hh
      simp only [Bool.false_eq_true, if_false] at hb hh ⊢
      rw [(next_of_drop hb).1]
      rw [cut, (next_of_drop hh).1, found_of_unmatched hflag]
      simp
    | true =>
      rw [hflag] at hb hh
      simp only [if_true] at hb hh ⊢
      rw [List.cons_append] at hb
      obtain ⟨hbit, hb⟩ := next_of_drop hb
      rw [hbit]
      rw [List.append_assoc] at hb hh
      have hl := @ih (pos * 2) (by omega) (left_lt_width hpos) { w with bits_used := w.bits_used + 1 } _ _ hb hh
      rw [hl]
      rw [ht, width_of_eq]
      have hfound : found txids matches_ (height + 1) pos =
          found txids matches_ height (pos * 2) ++ found txids matches_ height (pos * 2 + 1) := by
        simp [found, span_succ]
      by_cases hright : pos * 2 + 1 < width txids.length height
      · simp only [if_pos hright] at hb hh ⊢
        have hr := @ih (pos * 2 + 1) (by omega) hright
          { w with
            bits_used := w.bits_used + 1 + (flags txids matches_ height (pos * 2)).length
            hash_used := w.hash_used + (cuts txids matches_ height (pos * 2)).length
            matched := w.matched ++ found txids matches_ height (pos * 2) } _ _ (drop_append hb) (drop_append hh)
        rw [hr]
        have hside := hne height (by omega) pos hright
        rw [hfound, calc_hash, width_of_eq, if_pos hright, beq_false_of_ne hside]
        simp
        omega
      · have hempty : found txids matches_ height (pos * 2 + 1) = [] := by simp [found, span_nil hright]
        simp only [if_neg hright, hfound, hempty, calc_hash, width_of_eq, List.append_nil, List.length_cons]
        simp
        omega

def matching (txids : List Hash256) (matches_ : List Bool) : List (Hash256 × ℕ) :=
  txids.zipIdx.filter fun p => matches_.getD p.2 false

omit [Platform] in
theorem tree_height_le {n : ℕ} (hn : n ≠ 0) (hl : n ≤ 66666) : tree_height n ≤ 17 := by
  by_contra h
  have hw := (tree_height_spec hn (by omega)).2 17 (by omega)
  rw [lt_width] at hw
  omega

omit [Platform] in
theorem found_top (h : width txids.length top = 1) : found txids matches_ top 0 = matching txids matches_ := by
  have hspan : span txids.length top 0 = List.range txids.length := by
    have hle : ¬ 1 < width txids.length top := by omega
    rw [lt_width] at hle
    rw [span_eq, List.range_eq_range', Nat.zero_mul,
      show min ((0 + 1) * 2 ^ top) txids.length - 0 = txids.length by omega]
  have hidx : txids.zipIdx = (List.range txids.length).map fun i => (leaf_at txids i, i) := by
    apply List.ext_getElem
    · simp
    · intro i hi hi'
      have hlt : i < txids.length := by simpa using hi
      simp [leaf_at, hlt]
  rw [found, matching, hspan, hidx, List.filter_map]
  rfl

theorem siblings_ne (hne : txids ≠ []) (hl : txids.length ≤ 2 ^ 32) (hd : txids.Nodup) (hb : Binding txids)
    (ht : height < tree_height txids.length) (hpos : pos * 2 + 1 < width txids.length height) :
    calc_hash txids txids.length height (pos * 2 + 1) ≠ calc_hash txids txids.length height (pos * 2) := by
  intro h
  have hinj : Set.InjOn hash_pair {p | merkle_input p ∈ hashed_inputs txids} := fun p hp q hq he =>
    merkle_input_inj (hb _ hp _ hq he)
  have hleaf : ∀ i < txids.length, ∀ j < txids.length, leaf_at txids i = leaf_at txids j → i = j := by
    intro i hi j hj he
    simp only [leaf_at, List.getD_eq_getElem?_getD, List.getElem?_eq_getElem hi, List.getElem?_eq_getElem hj,
        Option.getD_some] at he
    exact (hd.getElem_inj_iff).mp he
  rw [calc_hash_eq, calc_hash_eq] at h
  have := node_ne hinj (fun k hk pos hp => (merkle_root_node hne hl).2 k hk pos hp) hleaf ht.le hpos (by omega) h
  omega

theorem extract_build (hne : txids ≠ []) (hl : txids.length ≤ 66666) (hd : txids.Nodup) (hb : Binding txids) :
    ∃ tree, decode (build txids matches_).encode = some (tree, []) ∧
      tree.extract = some ((AvilaNode.merkle_root txids).1, matching txids matches_) := by
  have hn : txids.length ≠ 0 := fun h => hne (List.length_eq_zero_iff.mp h)
  obtain ⟨htop, -⟩ := tree_height_spec hn (by omega)
  have hle := tree_height_le hn hl
  have hroot : 0 < width txids.length (tree_height txids.length) := by omega
  have hbuild : build txids matches_ = ⟨txids.length, cuts txids matches_ (tree_height txids.length) 0,
      flags txids matches_ (tree_height txids.length) 0, false⟩ := traverse_build_eq _ _ [] [] false
  obtain ⟨hcut, hcut', hflag⟩ := @cuts_length _ txids matches_ _ _ hroot
  have hpow := Nat.pow_le_pow_right (show 0 < 2 by omega) (show tree_height txids.length + 1 ≤ 18 by omega)
  have hspan : (span txids.length (tree_height txids.length) 0).length ≤ txids.length := by
    rw [span_eq, List.length_range']
    omega
  obtain ⟨padding, hdecode, hpad⟩ := @decode_encode (build txids matches_) (by rw [hbuild]; dsimp only; omega)
    (by rw [hbuild]; dsimp only; omega) (by rw [hbuild, MAX_SIZE]; dsimp only; omega)
    (by rw [hbuild, MAX_SIZE]; dsimp only; omega) []
  rw [List.append_nil] at hdecode
  refine ⟨_, hdecode, ?_⟩
  rw [hbuild] at hpad ⊢
  dsimp only at hpad ⊢
  have hwalk := @traverse_extract_eq _ txids matches_
    ⟨txids.length, cuts txids matches_ (tree_height txids.length) 0,
      flags txids matches_ (tree_height txids.length) 0 ++ padding, false⟩ rfl _
    (fun _ hk _ hp => siblings_ne hne (by omega) hd hb hk hp) _ _ (le_refl _) hroot ⟨false, 0, 0, []⟩ padding []
    (by simp) (by simp)
  have hlen : (flags txids matches_ (tree_height txids.length) 0 ++ padding).length =
      (flags txids matches_ (tree_height txids.length) 0).length + padding.length := List.length_append
  unfold extract
  dsimp only
  rw [if_neg hn, if_neg (by omega), if_neg (by omega), if_neg (by omega), hwalk]
  dsimp only
  rw [if_neg (by simp), if_neg (by omega), if_neg (by omega), (merkle_root_node hne (by omega)).1, found_top htop]
  rfl

def traverse_inputs (tree : PartialMerkleTree) : ℕ → ℕ → Walk → List (List UInt8)
  | 0, _, _ => []
  | height + 1, pos, w =>
    match tree.bits[w.bits_used]? with
    | some true =>
      let w := { w with bits_used := w.bits_used + 1 }
      let (left, w') := tree.traverse_extract height (pos * 2) w
      if pos * 2 + 1 < width_of tree.num_transactions height then
        let (right, _) := tree.traverse_extract height (pos * 2 + 1) w'
        merkle_input (left, right) :: (traverse_inputs tree height (pos * 2) w
          ++ traverse_inputs tree height (pos * 2 + 1) w')
      else merkle_input (left, left) :: traverse_inputs tree height (pos * 2) w
    | _ => []

def extract_inputs (tree : PartialMerkleTree) : List (List UInt8) :=
  traverse_inputs tree (tree_height tree.num_transactions) 0 ⟨tree.bad, 0, 0, []⟩

omit [Platform] in
theorem cut_sound {leaf : Bool} {w w' : Walk} {hash : Hash256} (h : tree.cut leaf pos w = (hash, w'))
    (hbad : w'.bad = false) :
    w.bad = false ∧ w'.matched = if leaf then w.matched ++ [(hash, pos)] else w.matched := by
  unfold cut at h
  split at h
  · cases h
    cases hbad
  · cases h
    exact ⟨hbad, rfl⟩

theorem traverse_extract_sound (ht : tree.num_transactions = txids.length)
    (hin : ∀ k < top, ∀ pos < width txids.length (k + 1),
      merkle_input (children hash_pair (leaf_at txids) txids.length k pos) ∈ hashed_inputs txids)
    (htop : height ≤ top) (hpos : pos < width txids.length height) {w w' : Walk} {hash : Hash256}
    (hinj : ∀ a ∈ traverse_inputs tree height pos w, ∀ b ∈ hashed_inputs txids,
      Platform.sha256d a = Platform.sha256d b → a = b)
    (h : traverse_extract tree height pos w = (hash, w')) (hhash : hash = calc_hash txids txids.length height pos)
    (hbad : w'.bad = false) :
    w.bad = false ∧ ∃ new, w'.matched = w.matched ++ new ∧ ∀ p ∈ new, txids[p.2]? = some p.1 := by
  induction height generalizing pos w w' hash with
  | zero =>
    have hlt : pos < txids.length := by simpa using hpos
    rw [traverse_extract] at h
    split at h
    · cases h
      cases hbad
    rename_i flag _
    obtain ⟨hw, hm⟩ := cut_sound h hbad
    cases flag with
    | false => exact ⟨hw, [], by simpa using hm, by simp⟩
    | true =>
      refine ⟨hw, _, hm, fun p hp => ?_⟩
      rw [List.mem_singleton.mp hp, hhash]
      simp [calc_hash, hlt]
  | succ height ih =>
    rw [traverse_extract] at h
    rw [traverse_inputs] at hinj
    split at h
    · cases h
      cases hbad
    · obtain ⟨hw, hm⟩ := cut_sound h hbad
      exact ⟨hw, [], by simpa using hm, by simp⟩
    · rename_i hbit
      rw [hbit] at hinj
      dsimp only at hinj
      -- the hash of the pair is the node's, so the pair is its children
      have hpair {left right : Hash256} (hmem : ∀ b ∈ hashed_inputs txids,
          Platform.sha256d (merkle_input (left, right)) = Platform.sha256d b → merkle_input (left, right) = b)
          (he : hash_merkle_pair left right = calc_hash txids txids.length (height + 1) pos) :
          (left, right) = children hash_pair (leaf_at txids) txids.length height pos := by
        rw [calc_hash_eq] at he
        exact merkle_input_inj (hmem _ (hin height (by omega) pos hpos) he)
      cases hl : traverse_extract tree height (pos * 2) { w with bits_used := w.bits_used + 1 } with
      | mk left w₁ =>
        rw [hl] at h hinj
        dsimp only at h hinj
        rw [ht, width_of_eq] at h hinj
        by_cases hright : pos * 2 + 1 < width txids.length height
        · rw [if_pos hright] at h hinj
          cases hr : traverse_extract tree height (pos * 2 + 1) w₁ with
          | mk right w₂ =>
            rw [hr] at h hinj
            obtain ⟨rfl, rfl⟩ := Prod.mk.inj h
            have hc := hpair (fun b hb => hinj _ List.mem_cons_self b hb) hhash
            rw [children, if_pos hright, ← calc_hash_eq, ← calc_hash_eq] at hc
            obtain ⟨hleft, hr'⟩ := Prod.mk.inj hc
            have hbad₂ : w₂.bad = false := (Bool.or_eq_false_iff.mp hbad).1
            obtain ⟨hbad₁, new₂, hm₂, hn₂⟩ := ih (by omega) hright (fun a ha b hb =>
              hinj a (List.mem_cons_of_mem _ (List.mem_append_right _ ha)) b hb) hr hr' hbad₂
            obtain ⟨hbad₀, new₁, hm₁, hn₁⟩ := ih (by omega) (left_lt_width hpos) (fun a ha b hb =>
              hinj a (List.mem_cons_of_mem _ (List.mem_append_left _ ha)) b hb) hl hleft hbad₁
            refine ⟨hbad₀, new₁ ++ new₂, ?_, fun p hp => ?_⟩
            · dsimp only
              rw [hm₂, hm₁, List.append_assoc]
            · rcases List.mem_append.mp hp with hp | hp
              · exact hn₁ p hp
              · exact hn₂ p hp
        · rw [if_neg hright] at h hinj
          obtain ⟨rfl, rfl⟩ := Prod.mk.inj h
          have hc := hpair (fun b hb => hinj _ List.mem_cons_self b hb) hhash
          rw [children, ← calc_hash_eq] at hc
          obtain ⟨hbad₀, new, hm, hn⟩ := ih (by omega) (left_lt_width hpos) (fun a ha b hb =>
            hinj a (List.mem_cons_of_mem _ ha) b hb) hl (congrArg Prod.fst hc) hbad
          exact ⟨hbad₀, new, hm, hn⟩

theorem extract_sound {root : Hash256} {matched : List (Hash256 × ℕ)} (h : tree.extract = some (root, matched))
    (ht : tree.num_transactions = txids.length) (hroot : (AvilaNode.merkle_root txids).1 = root)
    (hinj : ∀ a ∈ tree.extract_inputs, ∀ b ∈ hashed_inputs txids, Platform.sha256d a = Platform.sha256d b → a = b) :
    ∀ p ∈ matched, txids[p.2]? = some p.1 := by
  unfold extract at h
  split at h
  · cases h
  split at h
  · cases h
  split at h
  · cases h
  split at h
  · cases h
  rename_i hzero hmax _ _
  rw [ht] at hzero hmax
  have hne : txids ≠ [] := fun he => hzero (by rw [he]; rfl)
  cases hw : traverse_extract tree (tree_height tree.num_transactions) 0 ⟨tree.bad, 0, 0, []⟩ with
  | mk hash w =>
    rw [hw] at h
    dsimp only at h
    split at h
    · cases h
    split at h
    · cases h
    split at h
    · cases h
    rename_i hbad _ _
    obtain ⟨rfl, rfl⟩ := Prod.mk.inj (Option.some.inj h)
    obtain ⟨hnode, hin⟩ := merkle_root_node hne (by omega)
    have htop := (tree_height_spec hzero (by omega)).1
    rw [ht] at hw
    rw [extract_inputs, ht] at hinj
    obtain ⟨-, new, hm, hn⟩ := traverse_extract_sound ht hin (le_refl _) (by omega) hinj hw (hroot.symm.trans hnode)
      (by simpa using hbad)
    rw [hm]
    exact hn

/-- The inputs that must not collide are those the tree and the proof hash. -/
theorem partial_merkle_exact :
    (∀ (txids : List Hash256) (matches_ : List Bool), txids ≠ [] → txids.length ≤ 66666 → txids.Nodup →
      matches_.length = txids.length → Binding txids →
      ∃ tree, decode (build txids matches_).encode = some (tree, []) ∧
        tree.extract = some ((AvilaNode.merkle_root txids).1, matching txids matches_)) ∧
    ∀ (bytes rest : List UInt8) (tree : PartialMerkleTree) (txids : List Hash256) (root : Hash256)
      (matched : List (Hash256 × ℕ)), decode bytes = some (tree, rest) → tree.extract = some (root, matched) →
      txids.length = tree.num_transactions → (AvilaNode.merkle_root txids).1 = root →
      (∀ a ∈ tree.extract_inputs, ∀ b ∈ hashed_inputs txids, Platform.sha256d a = Platform.sha256d b → a = b) →
      ∀ p ∈ matched, txids[p.2]? = some p.1 := by
  refine ⟨fun txids matches_ hne hl hd _ hb => extract_build hne hl hd hb, ?_⟩
  intro bytes rest tree txids root matched _ h ht hroot hinj
  exact extract_sound h ht.symm hroot hinj

end

section

attribute [local instance] Platform.last_bytes

theorem partial_merkle_exact_three : (∃ tree, decode (build [1, 2, 3] [false, true, true]).encode = some (tree, []) ∧
      tree.extract = some ((AvilaNode.merkle_root [1, 2, 3]).1, matching [1, 2, 3] [false, true, true])) ∧
    ∀ p ∈ ([(2, 1), (3, 2)] : List (Hash256 × ℕ)), ([1, 2, 3] : List Hash256)[p.2]? = some p.1 := by
  have hinputs : hashed_inputs [1, 2, 3] = [merkle_input (1, 2), merkle_input (3, 3),
      merkle_input (hash_merkle_pair 1 2, hash_merkle_pair 3 3)] := rfl
  have hbinding : Binding [1, 2, 3] := by
    unfold Binding
    rw [hinputs]
    decide
  let tree : PartialMerkleTree := ⟨3, [1, 2, 3], [true, true, false, true, true, true, false, false], false⟩
  have hdecode : decode (build [1, 2, 3] [false, true, true]).encode = some (tree, []) := by decide +kernel
  have hextract : tree.extract = some ((AvilaNode.merkle_root [1, 2, 3]).1, [(2, 1), (3, 2)]) := by decide
  have hproof : tree.extract_inputs = [merkle_input (hash_merkle_pair 1 2, hash_merkle_pair 3 3),
      merkle_input (1, 2), merkle_input (3, 3)] := by decide
  obtain ⟨hbuild, hsound⟩ := partial_merkle_exact
  refine ⟨hbuild [1, 2, 3] [false, true, true] (by simp) (by simp) (by decide) rfl hbinding, ?_⟩
  apply hsound _ _ _ _ _ _ hdecode hextract rfl rfl
  rw [hproof, hinputs]
  decide

end

end PartialMerkleTree

end AvilaNode
