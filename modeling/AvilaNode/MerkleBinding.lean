import AvilaNode.BlockChecks
import AvilaNode.ByteStrings
import AvilaNode.MerkleTree

/-! The root a header commits to names one list of leaves. -/

namespace AvilaNode

open ByteStrings MerkleTree

theorem le_eq_map (width n : ℕ) : le width n = (List.range width).map fun i => UInt8.ofNat (n / 256 ^ i) := by
  induction width generalizing n with
  | zero => rfl
  | succ width ih =>
    rw [le_succ, List.range_succ_eq_map, List.map_cons, List.map_map, ih]
    simp [Function.comp_def, pow_succ', Nat.div_div_eq_div_mul]

theorem Hash256.to_bytes_eq (hash : Hash256) : hash.to_bytes = (le 32 hash.toNat).reverse := by
  rw [le_eq_map, ← List.map_reverse, List.range_eq_range', List.reverse_range', List.map_map, to_bytes]
  apply List.map_congr_left
  intro i hi
  simp

@[simp] theorem Hash256.length_to_bytes (hash : Hash256) : hash.to_bytes.length = 32 := by
  simp [to_bytes]

theorem Hash256.to_bytes_inj {a b : Hash256} (h : a.to_bytes = b.to_bytes) : a = b := by
  rw [to_bytes_eq, to_bytes_eq, List.reverse_inj] at h
  apply BitVec.eq_of_toNat_eq
  exact le_inj (by simpa using a.isLt) (by simpa using b.isLt) h

def merkle_input (pair : Hash256 × Hash256) : List UInt8 := pair.1.to_bytes ++ pair.2.to_bytes

theorem merkle_input_inj {p q : Hash256 × Hash256} (h : merkle_input p = merkle_input q) : p = q := by
  obtain ⟨hl, hr⟩ := List.append_inj h (by simp)
  exact Prod.ext (Hash256.to_bytes_inj hl) (Hash256.to_bytes_inj hr)

section

variable [Platform]

def hash_merkle_groups (try_sha256d64_8 : List (Hash256 × Hash256) → Option (List Hash256)) :
    List (Hash256 × Hash256) → List Hash256
  | a :: b :: c :: d :: e :: f :: g :: h :: pairs =>
    let group := [a, b, c, d, e, f, g, h]
    (match try_sha256d64_8 group with
      | some output => output
      | none => group.map fun pair => hash_merkle_pair pair.1 pair.2)
      ++ hash_merkle_groups try_sha256d64_8 pairs
  | remainder => remainder.map fun pair => hash_merkle_pair pair.1 pair.2

def hash_merkle_pairs (try_sha256d64_8 : List (Hash256 × Hash256) → Option (List Hash256))
    (pairs : List (Hash256 × Hash256)) (use_avx2 : Bool) : List Hash256 :=
  if use_avx2 then hash_merkle_groups try_sha256d64_8 pairs
  else pairs.map fun pair => hash_merkle_pair pair.1 pair.2

def adjacent_equal : List Hash256 → Bool
  | left :: right :: hashes => left == right || adjacent_equal hashes
  | _ => false

def as_pairs : List Hash256 → List (Hash256 × Hash256)
  | left :: right :: hashes => (left, right) :: as_pairs hashes
  | _ => []

def duplicate_last (hashes : List Hash256) : List Hash256 :=
  if hashes.length % 2 = 1 then hashes ++ hashes.getLast?.toList else hashes

def merkle_loop (try_sha256d64_8 : List (Hash256 × Hash256) → Option (List Hash256)) (use_avx2 : Bool) :
    ℕ → List Hash256 → Bool → Hash256 × Bool
  | 0, hashes, mutated => (hashes.headD 0, mutated)
  | fuel + 1, hashes, mutated =>
    if 1 < hashes.length then
      merkle_loop try_sha256d64_8 use_avx2 fuel
        (hash_merkle_pairs try_sha256d64_8 (as_pairs (duplicate_last hashes)) use_avx2)
        (mutated || adjacent_equal hashes)
    else (hashes.headD 0, mutated)

def merkle_root_with_avx2 (try_sha256d64_8 : List (Hash256 × Hash256) → Option (List Hash256))
    (leaves : List Hash256) (use_avx2 : Bool) : Hash256 × Bool :=
  merkle_loop try_sha256d64_8 use_avx2 leaves.length leaves false

def merkle_inputs : ℕ → List Hash256 → List (List UInt8)
  | 0, _ => []
  | fuel + 1, hashes =>
    if 1 < hashes.length then (pairs hashes).map merkle_input ++ merkle_inputs fuel (merkle_level hashes).1
    else []

def hashed_inputs (leaves : List Hash256) : List (List UInt8) := merkle_inputs leaves.length leaves

def hash_pair (pair : Hash256 × Hash256) : Hash256 := hash_merkle_pair pair.1 pair.2

section

variable {try_sha256d64_8 : List (Hash256 × Hash256) → Option (List Hash256)}
variable (htry : ∀ group output, try_sha256d64_8 group = some output → output = group.map hash_pair)

include htry

theorem hash_merkle_groups_eq (pairs : List (Hash256 × Hash256)) :
    hash_merkle_groups try_sha256d64_8 pairs = pairs.map hash_pair := by
  induction pairs using hash_merkle_groups.induct with
  | case1 a b c d e f g h pairs ih =>
    rw [hash_merkle_groups, ih]
    cases ho : try_sha256d64_8 [a, b, c, d, e, f, g, h] with
    | none => simp [hash_pair]
    | some output => simp [htry _ output ho]
  | case2 remainder h =>
    rw [hash_merkle_groups]
    · rfl
    · exact h

theorem hash_merkle_pairs_eq (pairs : List (Hash256 × Hash256)) (use_avx2 : Bool) :
    hash_merkle_pairs try_sha256d64_8 pairs use_avx2 = pairs.map hash_pair := by
  cases use_avx2
  · rfl
  · exact hash_merkle_groups_eq htry pairs

omit htry [Platform] in
theorem duplicate_last_cons (left right : Hash256) (hashes : List Hash256) :
    duplicate_last (left :: right :: hashes) = left :: right :: duplicate_last hashes := by
  have hl : (left :: right :: hashes).length % 2 = hashes.length % 2 := by
    simp only [List.length_cons]
    omega
  unfold duplicate_last
  rw [hl]
  split
  · cases hashes with
    | nil => simp at *
    | cons head tail => simp [List.getLast?_cons_cons]
  · rfl

omit htry [Platform] in
theorem as_pairs_duplicate_last : ∀ hashes : List Hash256, as_pairs (duplicate_last hashes) = pairs hashes
  | [] => by simp [duplicate_last, as_pairs]
  | [last] => by simp [duplicate_last, as_pairs]
  | left :: right :: hashes => by
    rw [duplicate_last_cons, as_pairs, pairs_cons, as_pairs_duplicate_last hashes]

omit htry in
theorem merkle_level_eq : ∀ hashes : List Hash256,
    merkle_level hashes = ((pairs hashes).map hash_pair, adjacent_equal hashes)
  | [] => rfl
  | [_] => rfl
  | left :: right :: hashes => by simp [merkle_level, merkle_level_eq hashes, adjacent_equal, hash_pair]

theorem merkle_loop_eq (use_avx2 : Bool) (fuel : ℕ) (hashes : List Hash256) (mutated : Bool) :
    merkle_loop try_sha256d64_8 use_avx2 fuel hashes mutated = merkle_levels fuel hashes mutated := by
  induction fuel generalizing hashes mutated with
  | zero => rfl
  | succ fuel ih =>
    rw [merkle_loop, merkle_levels, as_pairs_duplicate_last, hash_merkle_pairs_eq htry, ih, merkle_level_eq]

theorem merkle_root_with_avx2_eq (leaves : List Hash256) (use_avx2 : Bool) :
    merkle_root_with_avx2 try_sha256d64_8 leaves use_avx2 = merkle_root leaves :=
  merkle_loop_eq htry use_avx2 leaves.length leaves false

end

omit [Platform] in
theorem distinct_of_adjacent_equal : ∀ {hashes : List Hash256}, adjacent_equal hashes = false → Distinct hashes
  | [], _ => trivial
  | [_], _ => trivial
  | left :: right :: hashes, h => by
    simp only [adjacent_equal, Bool.or_eq_false_iff, beq_eq_false_iff_ne] at h
    exact ⟨h.1, distinct_of_adjacent_equal h.2⟩

variable {fuel : ℕ} {root : Hash256} {mutated : Bool}

variable {hashes : List Hash256}

theorem merkle_levels_mutated (h : merkle_levels fuel hashes mutated = (root, false)) :
    mutated = false := by
  induction fuel generalizing hashes mutated with
  | zero => simpa [merkle_levels] using congrArg Prod.snd h
  | succ fuel ih =>
    rw [merkle_levels] at h
    split at h
    · exact (Bool.or_eq_false_iff.mp (ih h)).1
    · simpa using congrArg Prod.snd h

theorem merkle_levels_above {known : Set (Hash256 × Hash256)} (h : merkle_levels fuel hashes mutated = (root, false))
    (hne : hashes ≠ []) (hf : hashes.length ≤ fuel + 1)
    (hk : ∀ p, merkle_input p ∈ merkle_inputs fuel hashes → p ∈ known) :
    Relation.ReflTransGen (Above hash_pair known) hashes [root] := by
  induction fuel generalizing hashes mutated with
  | zero =>
    obtain ⟨a, rfl⟩ : ∃ a, hashes = [a] := by
      apply List.length_eq_one_iff.mp
      have := List.length_pos_of_ne_nil hne
      omega
    simp only [merkle_levels, List.headD_cons, Prod.mk.injEq] at h
    rw [h.1]
  | succ fuel ih =>
    rw [merkle_levels] at h
    rw [merkle_inputs] at hk
    split at h
    · rename_i hl
      rw [if_pos hl] at hk
      rw [merkle_level_eq] at h hk
      have hlen := length_pairs hashes
      have hm := (Bool.or_eq_false_iff.mp (merkle_levels_mutated h)).2
      have hs : Above hash_pair known hashes ((pairs hashes).map hash_pair) := by
        refine ⟨hl, distinct_of_adjacent_equal hm, ?_, rfl⟩
        intro p hp
        apply hk
        exact List.mem_append_left _ (List.mem_map_of_mem hp)
      apply Relation.ReflTransGen.head hs
      apply ih h
      · intro he
        have := congrArg List.length he
        simp only [List.length_map, List.length_nil] at this
        omega
      · simp only [List.length_map]
        omega
      · intro p hp
        exact hk p (List.mem_append_right _ hp)
    · obtain ⟨a, rfl⟩ : ∃ a, hashes = [a] := by
        apply List.length_eq_one_iff.mp
        have := List.length_pos_of_ne_nil hne
        omega
      simp only [List.headD_cons, Prod.mk.injEq] at h
      rw [h.1]

theorem merkle_levels_inj {a b : List Hash256} {mutated' : Bool}
    (hinj : ∀ p, merkle_input p ∈ merkle_inputs fuel a ++ merkle_inputs fuel b →
      ∀ q, merkle_input q ∈ merkle_inputs fuel a ++ merkle_inputs fuel b → hash_pair p = hash_pair q → p = q)
    (hlength : a.length = b.length) (hf : a.length ≤ fuel + 1)
    (h : (merkle_levels fuel a mutated).1 = (merkle_levels fuel b mutated').1) : a = b := by
  induction fuel generalizing a b mutated mutated' with
  | zero =>
    match a, b, hlength with
    | [], [], _ => rfl
    | [x], [y], _ => simpa [merkle_levels] using h
    | _ :: _ :: _, _, _ => simp at hf
  | succ fuel ih =>
    rw [merkle_levels, merkle_levels] at h
    by_cases hl : 1 < a.length
    · rw [if_pos hl, if_pos (hlength ▸ hl), merkle_level_eq, merkle_level_eq] at h
      simp only [merkle_inputs, if_pos hl, if_pos (hlength ▸ hl : 1 < b.length), merkle_level_eq] at hinj
      have hla := length_pairs a
      have hlb := length_pairs b
      have hnext : (pairs a).map hash_pair = (pairs b).map hash_pair := by
        apply ih _ _ _ h
        · intro p hp q hq
          simp only [List.mem_append] at hp hq
          apply hinj <;> simp only [List.mem_append] <;> tauto
        · simp only [List.length_map]
          omega
        · simp only [List.length_map]
          omega
      apply pairs_inj_length hlength
      apply map_inj (s := {p | merkle_input p ∈ (pairs a).map merkle_input ++ (pairs b).map merkle_input}) _ _ _ hnext
      · intro p hp q hq
        simp only [Set.mem_ofPred_eq, List.mem_append] at hp hq
        apply hinj <;> simp only [List.mem_append] <;> tauto
      · intro p hp
        exact List.mem_append_left _ (List.mem_map_of_mem hp)
      · intro p hp
        exact List.mem_append_right _ (List.mem_map_of_mem hp)
    · rw [if_neg hl, if_neg (hlength ▸ hl)] at h
      match a, b, hlength with
      | [], [], _ => rfl
      | [x], [y], _ => simpa using h
      | _ :: _ :: _, _, _ => simp at hl

theorem merkle_root_inj_length {leaves leaves' : List Hash256}
    (hinj : Set.InjOn Platform.sha256d {bytes | bytes ∈ hashed_inputs leaves ++ hashed_inputs leaves'})
    (hlength : leaves.length = leaves'.length) (h : (merkle_root leaves).1 = (merkle_root leaves').1) :
    leaves = leaves' := by
  rw [merkle_root, merkle_root, ← hlength] at h
  rw [hashed_inputs, hashed_inputs, ← hlength] at hinj
  apply merkle_levels_inj _ hlength (Nat.le_succ _) h
  intro p hp q hq he
  exact merkle_input_inj (hinj hp hq he)

theorem merkle_root_nil : merkle_root [] = (0, false) := rfl

/-- The inputs that must not collide are those the two computations hash: over all strings of 64 bytes no
hash of 32 is injective. -/
theorem merkle_root_binding {try_sha256d64_8 : List (Hash256 × Hash256) → Option (List Hash256)}
    (htry : ∀ group output, try_sha256d64_8 group = some output → output = group.map hash_pair)
    {leaves leaves' : List Hash256} {root : Hash256} {use_avx2 : Bool}
    (hinj : ∀ a ∈ hashed_inputs leaves ++ hashed_inputs leaves', ∀ b ∈ hashed_inputs leaves ++ hashed_inputs leaves',
      Platform.sha256d a = Platform.sha256d b → a = b)
    (hleaf : ∀ leaf ∈ leaves ++ leaves', ∀ a ∈ hashed_inputs leaves ++ hashed_inputs leaves',
      Platform.sha256d a ≠ leaf)
    (h : merkle_root_with_avx2 try_sha256d64_8 leaves use_avx2 = (root, false))
    (h' : merkle_root_with_avx2 try_sha256d64_8 leaves' use_avx2 = (root, false)) :
    leaves = leaves' ∨ (root = 0 ∧ (leaves = [] ∨ leaves' = [])) := by
  rw [merkle_root_with_avx2_eq htry] at h h'
  by_cases hne : leaves = []
  · subst hne
    exact Or.inr ⟨by rw [merkle_root_nil] at h; simpa using h.symm, Or.inl rfl⟩
  by_cases hne' : leaves' = []
  · subst hne'
    exact Or.inr ⟨by rw [merkle_root_nil] at h'; simpa using h'.symm, Or.inr rfl⟩
  have hk : Set.InjOn hash_pair {p | merkle_input p ∈ hashed_inputs leaves ++ hashed_inputs leaves'} := by
    intro p hp q hq he
    apply merkle_input_inj
    exact hinj _ hp _ hq he
  left
  apply leaves_eq hk
  · intro leaf hm p hp
    exact hleaf leaf hm _ hp
  · exact merkle_levels_above h hne (by omega) fun p hp => List.mem_append_left _ hp
  · exact merkle_levels_above h' hne' (by omega) fun p hp => List.mem_append_right _ hp

end

@[reducible] def Platform.last_bytes : Platform :=
  { Platform.sample with
    sha256d := fun bytes => BitVec.ofNat 256 (1000 + 31 * (bytes.getD 31 0).toNat + (bytes.getD 63 0).toNat) }

section

attribute [local instance] Platform.last_bytes

theorem hashed_inputs_two (left right : Hash256) : hashed_inputs [left, right] = [merkle_input (left, right)] := rfl

theorem merkle_root_binding_two : ([1, 2] : List Hash256) = [1, 2] ∨
    (hash_merkle_pair 1 2 = 0 ∧ (([1, 2] : List Hash256) = [] ∨ ([1, 2] : List Hash256) = [])) := by
  apply @merkle_root_binding Platform.last_bytes (fun _ => none) (by simp) [1, 2] [1, 2] (hash_merkle_pair 1 2) true
  · rw [hashed_inputs_two]
    intro a ha b hb _
    simp only [List.cons_append, List.nil_append, List.mem_cons, List.not_mem_nil, or_false, or_self] at ha hb
    rw [ha, hb]
  · rw [hashed_inputs_two]
    intro leaf hl a ha
    simp only [List.cons_append, List.nil_append, List.mem_cons, List.not_mem_nil, or_false, or_self] at hl ha
    rcases hl with rfl | rfl | rfl | rfl <;> rw [ha] <;> decide +kernel
  · rfl
  · rfl

/-- An empty list answers zero, and so does the single leaf zero, which no hash here gives. -/
theorem merkle_root_empty_collides : (∀ bytes : List UInt8, Platform.sha256d bytes ≠ 0) ∧
    ([] : List Hash256) ≠ [0] ∧ merkle_root_with_avx2 (fun _ => none) [] true = (0, false) ∧
      merkle_root_with_avx2 (fun _ => none) [0] true = (0, false) := by
  refine ⟨?_, by simp, rfl, rfl⟩
  intro bytes h
  have hn : (1000 + 31 * (bytes.getD 31 0).toNat + (bytes.getD 63 0).toNat) % 2 ^ 256 = 0 :=
    congrArg BitVec.toNat h
  have hl := (bytes.getD 31 0).toNat_lt
  have hr := (bytes.getD 63 0).toNat_lt
  rw [Nat.mod_eq_of_lt (by omega)] at hn
  omega

end

end AvilaNode
