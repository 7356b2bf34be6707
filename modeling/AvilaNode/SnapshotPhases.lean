import AvilaNode.SnapshotExact

/-! A body whose last group is read or refused by where the blocks begin. -/

namespace AvilaNode.Snapshot

open ByteStrings ByteReader

structure Plain where
  txid : List UInt8
  size : List UInt8
  len : ℕ
  length_txid : txid.length = 32
  size_reads : Reads (varint (2 ^ 32 - 1)) size (len + 6)

variable (base_height : ℕ) {prev : Option (List UInt8)} {ps : List Plain}

variable (same_code : Bool)

namespace Plain

def bytes (p : Plain) : List UInt8 := p.txid ++ (1 :: 0 :: 0 :: 0 :: (p.size ++ List.replicate p.len 0))

def width (p : Plain) : ℕ := 36 + p.size.length + p.len

def group (p : Plain) : Group :=
  ⟨p.txid, 1, p.txid ++ le 4 0 ++ (le 4 0 ++ write_i64 0 ++
    if MAX_SCRIPT_SIZE < p.len then [1, 0x6a] else write_compact_size p.len ++ List.replicate p.len 0) ++ []⟩

theorem length_bytes (p : Plain) : p.bytes.length = p.width := by
  rw [bytes, width, List.length_append, p.length_txid]
  simp only [List.length_cons, List.length_append, List.length_replicate]
  omega

theorem take_reads {n : ℕ} {front : List UInt8} (h : front.length = n) : Reads (take n) front front := by
  intro tail
  rw [take, if_pos (by rw [List.length_append, h]; exact Nat.le_add_right _ _), List.take_left' h, List.drop_left' h]

theorem code_reads : Reads (varint (2 ^ 32 - 1)) [0] 0 := fun _ => rfl

theorem amount_reads : Reads (varint (2 ^ 64 - 1)) [0] 0 := fun _ => rfl

variable [PublicKeys]

theorem script_reads (strict : Bool) (p : Plain) (hstrict : strict = true → p.len ≤ MAX_SCRIPT_SIZE) :
    Reads (coin_script strict (p.len + 6)) (List.replicate p.len 0)
      (if MAX_SCRIPT_SIZE < p.len then [1, 0x6a] else write_compact_size p.len ++ List.replicate p.len 0) := by
  rw [coin_script, if_neg (by omega), if_neg (by omega), if_neg (by omega), if_neg (by omega), Nat.add_sub_cancel]
  rw [if_neg (by rintro ⟨hs, hlt⟩; exact absurd (hstrict hs) (by omega))]
  exact (take_reads List.length_replicate).map fun raw =>
    if MAX_SCRIPT_SIZE < p.len then [1, 0x6a] else write_compact_size p.len ++ raw

theorem coin_reads (strict : Bool) (base_height : ℕ) (p : Plain) (hstrict : strict = true → p.len ≤ MAX_SCRIPT_SIZE) :
    Reads (coin strict base_height) ([0] ++ ([0] ++ (p.size ++ (List.replicate p.len 0 ++ []))))
      (0, le 4 0 ++ write_i64 0 ++
        if MAX_SCRIPT_SIZE < p.len then [1, 0x6a] else write_compact_size p.len ++ List.replicate p.len 0) := by
  refine code_reads.bind (amount_reads.bind (p.size_reads.bind ((script_reads strict p hstrict).bind ?_)))
  rw [if_neg (by simp), if_neg (by decide)]
  exact Reads.pure _

theorem shaped_reads (strict same_code : Bool) (base_height : ℕ) (p : Plain)
    (hstrict : strict = true → p.len ≤ MAX_SCRIPT_SIZE) :
      Reads (group_shaped strict base_height same_code) p.bytes p.group := by
  have hcompact (c : UInt8) (hc : c ≤ 252) : Reads compact [c] c.toNat := by
    intro rest
    rw [compact, List.singleton_append, bind_ok (a := c) rfl, if_pos hc]
    rfl
  have hcoins : Reads (group_coins strict same_code base_height p.txid 1 none none)
      ([0] ++ (([0] ++ ([0] ++ (p.size ++ (List.replicate p.len 0 ++ [])))) ++ ([] ++ [])))
      (p.txid ++ le 4 0 ++ (le 4 0 ++ write_i64 0 ++
        if MAX_SCRIPT_SIZE < p.len then [1, 0x6a] else write_compact_size p.len ++ List.replicate p.len 0) ++
          []) := by
    rw [group_coins]
    refine (hcompact 0 (by decide)).bind ?_
    rw [if_neg (by simp [STRICT_MAX_OUTPUTS])]
    refine (coin_reads strict base_height p hstrict).bind ?_
    dsimp only
    rw [if_neg (by simp)]
    exact (Reads.pure []).bind (Reads.pure _)
  have h : Reads (group_shaped strict base_height same_code) (p.txid ++ ([1] ++ (([0] ++ (([0] ++ ([0] ++
      (p.size ++ (List.replicate p.len 0 ++ [])))) ++ ([] ++ []))) ++ []))) p.group := by
    rw [group_shaped]
    refine (take_reads p.length_txid).bind ((hcompact 1 (by decide)).bind ?_)
    rw [if_neg (by simp [STRICT_MAX_OUTPUTS])]
    exact hcoins.bind (Reads.pure _)
  rw [bytes]
  simpa using h

theorem window_group_bytes (p : Plain) (rest : List UInt8) :
    window_group base_height (p.bytes ++ rest) = .ok (p.group, p.width) := by
  refine window_group_ok.mpr ⟨rest, shaped_reads false false base_height p (by simp) rest, ?_⟩
  rw [List.length_append, p.length_bytes, Nat.add_sub_cancel]

theorem window_shaped_bytes (p : Plain) (hp : p.len ≤ MAX_SCRIPT_SIZE) (rest : List UInt8) :
    window_shaped base_height same_code (p.bytes ++ rest) = .ok (p.group, p.width) := by
  rw [window_shaped, shaped_reads true same_code base_height p (fun _ => hp) rest]
  change Except.ok (p.group, (p.bytes ++ rest).length - rest.length) = _
  rw [List.length_append, p.length_bytes, Nat.add_sub_cancel]

end Plain

def placed : ℕ → List Plain → List Placed
  | _, [] => []
  | off, p :: ps => ⟨off, p.width, p.group⟩ :: placed (off + p.width) ps

def heads : ℕ → List Plain → List Head
  | _, [] => []
  | off, p :: ps => ⟨off, p.txid, p.width⟩ :: heads (off + p.width) ps

def rising : Option (List UInt8) → List Plain → Bool
  | _, [] => true
  | prev, p :: ps => !(prev.any fun t => txid_le p.txid t) && rising (some p.txid) ps

theorem rising_cons {p : Plain} (h : rising prev (p :: ps) = true) :
    (prev.any fun t => txid_le p.txid t) = false ∧ rising (some p.txid) ps = true := by
  rw [rising, Bool.and_eq_true, Bool.not_eq_true'] at h
  exact h

theorem ascending_placed (h : rising prev ps = true) (off : ℕ) :
    Ascending prev (placed off ps) := by
  induction ps generalizing prev off with
  | nil => trivial
  | cons p ps ih => exact ⟨(rising_cons h).1, ih (rising_cons h).2 _⟩

theorem counted_placed (bucket off : ℕ) (ps : List Plain) (acc : Region × Option ℕ) :
    (tally bucket acc (placed off ps)).1.coins = acc.1.coins + ps.length ∧
      (tally bucket acc (placed off ps)).1.groups = acc.1.groups + ps.length ∧
      (ps ≠ [] → (tally bucket acc (placed off ps)).1.last_n = 1) := by
  induction ps generalizing off acc with
  | nil => exact ⟨rfl, rfl, fun h => absurd rfl h⟩
  | cons p ps ih =>
    obtain ⟨hcoins, hgroups, hlast⟩ := ih (off + p.width) (add_group bucket acc ⟨off, p.width, p.group⟩)
    have hstep : tally bucket acc (placed off (p :: ps)) =
        tally bucket (add_group bucket acc ⟨off, p.width, p.group⟩) (placed (off + p.width) ps) := rfl
    rw [hstep, hcoins, hgroups, List.length_cons]
    refine ⟨by change acc.1.coins + 1 + ps.length = _; omega, by change acc.1.groups + 1 + ps.length = _; omega,
      fun _ => ?_⟩
    by_cases hps : ps = []
    · rw [hps]
      rfl
    · exact hlast hps

section

variable [PublicKeys]

theorem walk_placed (front : List UInt8) (ps : List Plain) :
    Walk (front ++ ps.flatMap Plain.bytes) base_height front.length (placed front.length ps)
      (front ++ ps.flatMap Plain.bytes).length := by
  induction ps generalizing front with
  | nil =>
    rw [List.flatMap_nil, List.append_nil]
    exact .nil le_rfl
  | cons p ps ih =>
    have hstep := ih (front ++ p.bytes)
    rw [List.append_assoc, List.length_append, p.length_bytes] at hstep
    rw [List.flatMap_cons]
    refine .cons rfl ?_ hstep
    rw [List.drop_left]
    exact p.window_group_bytes base_height _

theorem follow_heads (win rest : List UInt8) (ps : List Plain) (hlen : ∀ p ∈ ps, p.len ≤ MAX_SCRIPT_SIZE) (off : ℕ)
    (hwin : win.drop off = ps.flatMap Plain.bytes ++ rest) (prev : Option (List UInt8))
    (hrise : rising prev ps = true) (chain : List Head) :
    follow win base_height none none same_code ps.length chain off prev = .Chain (chain ++ heads off ps) := by
  induction ps generalizing off prev chain with
  | nil => rw [heads, List.append_nil]; rfl
  | cons p ps ih =>
    obtain ⟨hp, hlen⟩ := List.forall_mem_cons.mp hlen
    rw [List.flatMap_cons, List.append_assoc] at hwin
    have htxid : (win.drop off).take 32 = p.txid := by
      rw [hwin, Plain.bytes, List.append_assoc, List.take_left' p.length_txid]
    have hnext : win.drop (off + p.width) = ps.flatMap Plain.bytes ++ rest := by
      rw [← List.drop_drop, hwin, List.drop_left' p.length_bytes]
    have hgroup : window_shaped base_height same_code ((win.take win.length).drop off) = .ok (p.group, p.width) := by
      rw [List.take_length, hwin]
      exact p.window_shaped_bytes base_height same_code hp _
    have hin : ((prev.any fun x => txid_le p.txid x) ||
        (none : Option (List UInt8 × List UInt8)).any fun x => txid_le x.2 p.txid) = false := by
      rw [(rising_cons hrise).1]
      rfl
    rw [List.length_cons, follow]
    rw [if_neg (by simp), htxid, if_neg (by rintro ⟨-, hout⟩; exact absurd (hin.symm.trans hout) (by simp)),
      Option.getD_none,
      hgroup]
    dsimp only
    rw [if_neg (by intro hout; exact absurd (hin.symm.trans hout) (by simp))]
    refine (ih hlen _ hnext (some p.txid) (rising_cons hrise).2 _).trans ?_
    rw [heads, List.append_assoc]
    rfl

omit [PublicKeys] in
theorem length_flatMap (ps : List Plain) : (ps.flatMap Plain.bytes).length = (ps.map Plain.width).sum := by
  induction ps with
  | nil => rfl
  | cons p ps ih => rw [List.flatMap_cons, List.length_append, p.length_bytes, ih, List.map_cons, List.sum_cons]

theorem boundary_heads (file : List UInt8) (base_height : ℕ) (same_code : Bool) (x : ℕ) (p : Plain) (ps : List Plain)
    (rest : List UInt8) (hcount : (p :: ps).length = RESYNC_GROUPS) (hlen : ∀ q ∈ p :: ps, q.len ≤ MAX_SCRIPT_SIZE)
    (hrise : rising none (p :: ps) = true) (htight : tight (heads 0 (p :: ps)) = .Yes)
    (hsum : ((p :: ps).map Plain.width).sum ≤ PROBE)
    (hfile : file.drop x = (p :: ps).flatMap Plain.bytes ++ rest) (hmore : x + PROBE < file.length) :
    boundary_near file x base_height same_code = .ok (x + p.width) := by
  have hwin : read_window file x PROBE =
      (p :: ps).flatMap Plain.bytes ++ rest.take (PROBE - ((p :: ps).map Plain.width).sum) := by
    rw [read_window, hfile, List.take_append, length_flatMap, List.take_of_length_le (by rwa [length_flatMap])]
  have hlenwin : (read_window file x PROBE).length = PROBE := by
    rw [read_window, List.length_take, List.length_drop]
    omega
  have hfollow := follow_heads base_height same_code (read_window file x PROBE)
    (rest.take (PROBE - ((p :: ps).map Plain.width).sum)) (p :: ps) hlen 0 hwin none hrise []
  rw [hcount, List.nil_append] at hfollow
  have hsync : resync (read_window file x PROBE) 0 base_height none none same_code =
      .At (some ⟨0, p.txid, p.width⟩) p.width := by
    rw [resync, Option.map_none, Option.getD_none, hlenwin]
    change resync_from (read_window file x PROBE) base_height none none same_code (32767 + 1) 0 = _
    rw [resync_from, Option.map_none, hfollow]
    dsimp only
    rw [htight]
    rw [heads, List.headD_cons, Nat.zero_add]
  rw [boundary_near, boundary_loop, hlenwin, decide_eq_false (by omega), if_neg Bool.false_ne_true, hsync]

namespace Phases

def tag (i : UInt8) : List UInt8 := List.replicate 31 0 ++ [i]

def first : Plain := ⟨tag 0, [129, 254, 254, 82], 6291404, rfl, fun _ => rfl⟩

def small (i : UInt8) : Plain := ⟨tag i, [6], 0, rfl, fun _ => rfl⟩

def large : Plain := ⟨tag 9, [135, 254, 252, 16], 18873994, rfl, fun _ => rfl⟩

def smalls : List Plain := [1, 2, 3, 4, 5, 6, 7, 8].map small

def header : List UInt8 := MAGIC ++ [2, 0] ++ List.replicate 36 0 ++ [10, 0, 0, 0, 0, 0, 0, 0]

def groups : List Plain := first :: (smalls ++ [large])

def file : List UInt8 := header ++ groups.flatMap Plain.bytes

omit [PublicKeys] in
theorem length_file : file.length = 25165825 := by
  rw [file, List.length_append, length_flatMap]
  decide

omit [PublicKeys] in
theorem drop_file : file.drop 6291495 = smalls.flatMap Plain.bytes ++ (large.bytes ++ []) := by
  have hfirst : file = header ++ first.bytes ++ (smalls.flatMap Plain.bytes ++ (large.bytes ++ [])) := by
    rw [file, groups, List.flatMap_cons, List.flatMap_append, List.flatMap_cons, List.flatMap_nil, List.append_assoc]
  rw [hfirst]
  refine List.drop_left' ?_
  rw [List.length_append, first.length_bytes]
  rfl

theorem boundary_file :
    boundary_near file 6291495 base_height same_code = .ok 6291532 :=
  boundary_heads file base_height same_code 6291495 (small 1) ([2, 3, 4, 5, 6, 7, 8].map small)
    (large.bytes ++ []) rfl
    (by decide) (by decide) (by decide) (by decide) drop_file (by rw [length_file]; decide)

def places : List Placed := placed HEADER_LEN groups

omit [PublicKeys] in
theorem read_header_file : read_header file = .ok ⟨List.replicate 4 0, List.replicate 32 0, 10⟩ := by
  rw [read_header, length_file, if_neg (by decide)]
  rfl

theorem walk_file : Walk file base_height HEADER_LEN places file.length :=
  walk_placed base_height header groups

variable {bucket : ℕ}

theorem parsed_file (hb : bucket ≠ 0) :
    Parsed file base_height bucket ⟨List.replicate 4 0, List.replicate 32 0, 10⟩ places := by
  obtain ⟨hcoins, hgroups, hlast⟩ := counted_placed bucket HEADER_LEN groups (empty_region HEADER_LEN, none)
  refine ⟨walk_file base_height, ascending_placed (by decide) _, fun _ => hb, ?_⟩
  rw [places, hcoins, hgroups, hlast (by simp [groups]), check_end, if_neg (by simp), if_neg (by decide),
    if_neg (by decide)]

omit [PublicKeys] in
theorem places_span : ∀ p ∈ places, p.len ≤ MAX_GROUP ∨ p.off = 6291791 ∧ p.len = 18874034 := by decide

omit [PublicKeys] in
theorem large_placed : ∃ p ∈ places, p.off = 6291791 ∧ p.len = 18874034 :=
  ⟨⟨6291791, 18874034, large.group⟩, by
    rw [places, groups]
    exact List.mem_of_getElem? (i := 9) rfl, rfl, rfl⟩

theorem parse_body_file : outcome (parse_body file base_height bucket) = none := by
  rw [Option.eq_none_iff_forall_not_mem]
  intro counts hcounts
  obtain ⟨gs, hparsed, hflows, -⟩ := (parse_body_iff read_header_file (by rw [length_file]; decide) counts).mp hcounts
  have hgs : gs = places := hparsed.walk.unique (walk_file base_height)
  subst hgs
  obtain ⟨p, hp, hoff, hlen⟩ := large_placed
  exact hflows p hp ⟨3, by rw [hoff]; decide, by rw [hoff, hlen]; decide⟩

theorem scan_file (hb : bucket ≠ 0) :
    outcome (scan file 4 base_height bucket) = some (counted bucket places) := by
  have hsplit : split_offsets file.length 4 = [6291495, 12582939, 18874383] := by
    rw [length_file]
    decide
  have hcandidates : candidates file 4 base_height =
      .ok 6291532 :: ([12582939, 18874383].map fun x =>
        boundary_near file x base_height (uniform_codes file base_height)) := by
    rw [candidates, hsplit, List.map_cons, boundary_file]
  have hparsed := parsed_file base_height hb
  rw [scan_eq_stitch read_header_file, hcandidates]
  obtain ⟨-, hsorted, hlt⟩ := region_starts_eq file.length
    (.ok 6291532 :: ([12582939, 18874383].map fun x =>
      boundary_near file x base_height (uniform_codes file base_height)))
  refine (stitch_iff (by rw [length_file]; decide) _ _).mpr ⟨places, hparsed, ?_, rfl⟩
  refine regions_exist hparsed.walk (List.pairwise_cons.mp hsorted).2 hlt ?_
  intro p hp q hq hle hnone
  rintro ⟨k, hgt, hend⟩
  rw [max_group_eq, read_block_eq] at hgt
  rw [read_block_eq] at hend
  rcases places_span p hp with hshort | ⟨hoff, hlen⟩
  · rw [max_group_eq] at hshort
    omega
  have hstop := @region_stops_cons file.length 6291532 (by decide) (by rw [length_file]; decide)
    ([12582939, 18874383].map fun x => boundary_near file x base_height (uniform_codes file base_height))
  have hq := hnone 6291532 hstop
  rw [align_down, ALIGN] at hgt hend
  omega

end Phases

end

local instance : PublicKeys :=
  ⟨fun _ => false, fun _ _ => none, PublicKeys.length_of_none, PublicKeys.none_of_point⟩

theorem large_group_by_phase : outcome (parse_body Phases.file 0 1) = none ∧
    outcome (scan Phases.file 4 0 1) = some (counted 1 Phases.places) ∧
    (counted 1 Phases.places).1 = 10 ∧ (counted 1 Phases.places).2.1 = 10 :=
  ⟨Phases.parse_body_file 0, Phases.scan_file 0 (by decide), by decide, by decide⟩

end AvilaNode.Snapshot
