import AvilaNode.SnapshotHinted
import AvilaNode.SnapshotPhases

/-! The parallel check against the one-pass check, for every file and all hints. -/

namespace AvilaNode.Snapshot

open ByteStrings ByteReader

section

variable [ShaKernel] [PublicKeys] {file : List UInt8} {base_height bucket : ℕ} {hdr : Header}

variable {gs : List Placed}

section Runs

omit [ShaKernel] [PublicKeys] in
theorem hinted_runs_flatten (every : ℕ) (gs : List Placed) : (hinted_runs every gs).flatten = gs := by
  rw [hinted_runs]
  split_ifs with hnil
  · rw [hnil]
    rfl
  · exact stretches_flatten _ _ _ _

omit [ShaKernel] in
theorem hinted_runs_ne (every : ℕ) {b : ℕ} (hw : Walk file base_height HEADER_LEN gs b) :
    ∀ run ∈ hinted_runs every gs, run ≠ [] := by
  rw [hinted_runs]
  cases gs with
  | nil => simp
  | cons p gs =>
    rw [if_neg (List.cons_ne_nil p gs), stretches, if_neg (by rw [hw.head.1]; omega), List.nil_append]
    exact stretches_ne _ _ _ (List.cons_ne_nil p [])

variable {a : Hint} {runs : List (List Placed)} {hs : List Hint}

theorem honest_exists (runs : List (List Placed)) {a : Hint} {b : ℕ} (hw : Walk file base_height a.off runs.flatten b)
    (hlen : a.state.buf_len ≤ 64) : ∃ hs, Honest file base_height a runs hs := by
  induction runs generalizing a with
  | nil => exact ⟨[], .nil a⟩
  | cons run runs ih =>
    rw [List.flatten_cons] at hw
    obtain ⟨c, hrun, hw⟩ := hw.split
    obtain ⟨s, -, hs, hcontent⟩ := ShaState.update_content hlen (hashed run)
    obtain ⟨hs', hrest⟩ := ih (a := ⟨c, a.coins + coin_count run, s⟩) hw hs.le
    exact ⟨_, .cons hrun rfl hcontent hs hrest⟩

theorem Honest.runs_eq {runs' : List (List Placed)} (h : Honest file base_height a runs hs)
    (h' : Honest file base_height a runs' hs) : runs = runs' := by
  induction h generalizing runs' with
  | nil a =>
    cases h'
    rfl
  | cons hw hcoins hstate hlen hrest ih =>
    cases h' with
    | cons hw' hcoins' hstate' hlen' hrest' =>
      have hsame := ih hrest'
      rename_i a b run runs hs run' runs'
      rw [hsame]
      congr 1
      rcases hw.compare hw' with ⟨more, rfl, hmore⟩ | ⟨more, rfl, hmore⟩
      · rw [hmore.from_end, List.append_nil]
      · rw [hmore.from_end, List.append_nil]

theorem Honest.run_walk (h : Honest file base_height a runs hs) :
    ∀ run ∈ runs, ∃ x y, Walk file base_height x run y := by
  induction h with
  | nil a => simp
  | cons hw _ _ _ _ ih => exact List.forall_mem_cons.mpr ⟨⟨_, _, hw⟩, ih⟩

theorem Honest.cleaned (h : Honest file base_height a runs hs) :
    Honest file base_height a runs (hs.map Hint.cleaned) := by
  induction h with
  | nil a => exact .nil a
  | cons hw hcoins hstate hlen hrest ih =>
    have hcontent := Hint.cleaned_content hlen.le
    exact .cons hw hcoins (hcontent.trans hstate) hlen (ih.same rfl rfl hcontent.symm)

theorem Honest.length (h : Honest file base_height a runs hs) :
    hs.length = runs.length := by
  induction h with
  | nil a => rfl
  | cons _ _ _ _ _ ih => rw [List.length_cons, List.length_cons, ih]

theorem Honest.fits (h : Honest file base_height a runs hs) (hfile : file.length < 2 ^ 64)
    (hcoins : a.coins + coin_count runs.flatten < 2 ^ 64) : ∀ b ∈ hs, b.Fits := by
  have hle := h.coins_le
  induction h with
  | nil a => simp
  | cons hw hsum hstate hlen hrest ih =>
    rw [List.flatten_cons, coin_count_append] at hcoins
    refine List.forall_mem_cons.mpr ⟨⟨hw.le.2.trans_lt hfile, by omega, ?_, hlen⟩, ih (by omega) hrest.coins_le⟩
    have htotal := congrArg ShaState.Content.total hstate
    exact htotal.trans_lt (Nat.mod_lt _ (by decide))

omit [ShaKernel] [PublicKeys] in
theorem genesis_fits : Hint.genesis.Fits := ⟨by decide, by decide, by decide, by decide⟩

end Runs

section Exact

/-- Blocks refuse a group from wherever they begin; or the one pass and the passes between its hints take every group,
and its first mark and the number of its hints fit in their fields. -/
def Even (every : ℕ) (gs : List Placed) : Prop :=
  (∃ p ∈ gs, Blocked p.off p) ∨
    (∀ p ∈ gs, ¬Blocked HEADER_LEN p) ∧ (∀ run ∈ hinted_runs every gs, Unblocked run) ∧
      HEADER_LEN + max every 1 < 2 ^ 64 ∧ (hinted_runs every gs).length + 1 < 2 ^ 32

def Passes (file : List UInt8) (base_height bucket : ℕ) (hints : Hints) : Prop :=
  ∀ threads done, HintedResults file threads base_height hints bucket done →
    ∃ out, verify_hinted file hints bucket done = .ok out

variable {hints : Hints}

theorem passes_iff : Passes file base_height bucket hints ↔
    ∃ hdr runs, read_header file = .ok hdr ∧ Proven file base_height bucket hdr hints runs := by
  constructor
  · intro h
    obtain ⟨done, hdone⟩ :=
      Pool.taken_exists (interval_job file base_height bucket hints.hints) (hints.hints.length - 1)
      (max 1 1)
    obtain ⟨out, hout⟩ := h 1 done hdone
    obtain ⟨hdr, runs, hhdr, hproven, -⟩ := (verify_hinted_iff hdone out.report).mp ⟨out, hout, rfl⟩
    exact ⟨hdr, runs, hhdr, hproven⟩
  · rintro ⟨hdr, runs, hhdr, hproven⟩ threads done hdone
    obtain ⟨out, hout, -⟩ :=
      (verify_hinted_iff hdone (verdict bucket runs.flatten)).mpr ⟨hdr, runs, hhdr, hproven, rfl⟩
    exact ⟨out, hout⟩

theorem Proven.not_blocked {runs : List (List Placed)} (h : Proven file base_height bucket hdr hints runs)
    {p : Placed} (hp : p ∈ runs.flatten) : ¬Blocked p.off p := by
  intro hblocked
  obtain ⟨g, tail, -, -, hhonest⟩ := h.hints_eq
  obtain ⟨run, hrun, hmem⟩ := List.mem_flatten.mp hp
  obtain ⟨x, y, hwalk⟩ := hhonest.run_walk run hrun
  exact (unblocked_iff hwalk).mp (h.runs_read run hrun).2 p hmem (blocked_self (hwalk.mem hmem).1 hblocked)

variable {tail : List Hint}

theorem proven_of_stream {every : ℕ} (hparsed : Parsed file base_height bucket hdr gs)
    (hruns : ∀ run ∈ hinted_runs every gs, Unblocked run) {g : Hint} (hg : g.eq .genesis = true)
    (hhonest : Honest file base_height .genesis (hinted_runs every gs) tail) :
    Proven file base_height bucket hdr ⟨file.length, hdr, g :: tail⟩ (hinted_runs every gs) := by
  refine ⟨by rw [hinted_runs_flatten]; exact hparsed, fun run hrun => ⟨?_, hruns run hrun⟩, g, tail, rfl, hg, hhonest⟩
  exact hinted_runs_ne every hparsed.walk run hrun

theorem not_proven_of_cut {runs runs' : List (List Placed)} {g : Hint} {k : ℕ}
    (hparsed : Parsed file base_height bucket hdr runs.flatten) (hne : ∀ run ∈ runs, run ≠ [])
    (hg : g.off = HEADER_LEN) (hhonest : Honest file base_height g runs tail) (hk : k < (g :: tail).length)
    (hhints : hints.hints = ((g :: tail).take k).map Hint.cleaned) :
      ¬Proven file base_height bucket hdr hints runs' := by
  intro hproven
  obtain ⟨g', tail', rfl, hg', hhonest'⟩ := hproven.hints_eq
  obtain ⟨hgoff, hgcoins, hgstate, hglen⟩ := genesis_eq hg'
  have hheader := hparsed.walk.le.1
  have hempty : ShaState.default.content.update [] = ShaState.default.content := by
    rw [ShaState.Content.update, absorb_all_short (by decide)]
    rfl
  obtain ⟨last, hlast⟩ : ∃ last, (g' :: tail').getLast? = some last := ⟨_, List.getLast?_eq_some_getLast (by simp)⟩
  obtain ⟨hwalk, -, -, -⟩ := (hhonest'.same hgoff.symm hgcoins.symm hgstate.symm).last (hgoff.trans_le hheader)
    (by rw [hgstate, hempty]) (by omega) hlast
  rw [hgoff] at hwalk
  have hend : last.off = file.length := hwalk.end_unique hproven.parsed.walk
  have hmem : last ∈ ((g :: tail).take k).map Hint.cleaned := by
    rw [← hhints]
    exact List.mem_of_getLast? hlast
  obtain ⟨h, hh, rfl⟩ := List.mem_map.mp hmem
  obtain ⟨hsorted, hwithin⟩ := hhonest.off_le hne
  obtain ⟨b, hb⟩ := List.exists_mem_of_ne_nil ((g :: tail).drop k) (by
    rw [ne_eq, List.drop_eq_nil_iff]
    omega)
  rw [← List.take_append_drop k (g :: tail)] at hsorted
  have hlt := (List.pairwise_append.mp hsorted).2.2 h hh b hb
  have hle : b.off ≤ file.length := by
    rcases List.mem_cons.mp (List.mem_of_mem_drop hb) with rfl | hb
    · rw [hg]
      exact hheader
    · exact (hwithin b hb).2
  have hsame : h.cleaned.off = h.off := rfl
  omega

theorem passes_own (hhdr : read_header file = .ok hdr) (hparsed : Parsed file base_height bucket hdr gs)
    (hself : ¬∃ p ∈ gs, Blocked p.off p) : ∃ hints, Passes file base_height bucket hints := by
  have hsplit : (gs.map fun p => [p]).flatten = gs := by
    rw [← List.flatMap_def]
    exact List.flatMap_singleton' gs
  obtain ⟨tail, hhonest⟩ := @honest_exists _ _ file base_height (gs.map fun p => [p]) .genesis file.length
    (by rw [hsplit]; exact hparsed.walk) (Nat.zero_le _)
  refine ⟨⟨file.length, hdr, .genesis :: tail⟩,
    passes_iff.mpr ⟨hdr, _, hhdr, by rw [hsplit]; exact hparsed, fun run hrun => ?_,
    _, tail, rfl, by decide, hhonest⟩⟩
  obtain ⟨p, hp, rfl⟩ := List.mem_map.mp hrun
  refine ⟨by simp, ?_⟩
  intro q hq p' hp'
  cases hq
  rw [List.mem_singleton.mp hp']
  exact fun h => hself ⟨p, hp, h⟩

/-- Hints of one file: none that pass in parallel give what one pass does not, and those that one pass leaves pass,
also when they have been encoded and decoded. -/
structure Agrees (file : List UInt8) (base_height every bucket : ℕ) : Prop where
  sound : ∀ threads hints done, HintedResults file threads base_height hints bucket done → ∀ out,
    verify_hinted file hints bucket done = .ok out →
      ∃ out' hints', verify_stream file base_height every bucket = .ok (out', hints') ∧ out'.report = out.report
  complete : ∀ out hints, verify_stream file base_height every bucket = .ok (out, hints) →
    Passes file base_height bucket hints ∧ ∃ bytes hints', hints.encode = some bytes ∧
      Hints.decode bytes = .ok hints' ∧
      Passes file base_height bucket hints'

/-- The parallel check agrees with one pass exactly where blocks treat the groups alike for both, and the marks
fit. -/
theorem hinted_exact (file : List UInt8) (hfile : file.length < 2 ^ 64) (base_height every bucket : ℕ) :
    Agrees file base_height every bucket ↔
      ∀ hdr gs, read_header file = .ok hdr → Parsed file base_height bucket hdr gs → Even every gs := by
  constructor
  · intro hagrees hdr gs hhdr hparsed
    by_cases hself : ∃ p ∈ gs, Blocked p.off p
    · exact Or.inl hself
    right
    obtain ⟨hints, hpasses⟩ := passes_own hhdr hparsed hself
    obtain ⟨done, hdone⟩ :=
      Pool.taken_exists (interval_job file base_height bucket hints.hints) (hints.hints.length - 1)
      (max 1 1)
    obtain ⟨out, hout⟩ := hpasses 1 done hdone
    obtain ⟨out', hints', hstream, -⟩ := hagrees.sound 1 hints done hdone out hout
    obtain ⟨gs', tail', hparsed', hflows, hfits, hhonest', rfl, -⟩ := verify_stream_sound hhdr hstream
    obtain rfl := hparsed.unique hparsed'
    obtain ⟨hpasses', bytes, hints'', hencode, hdecode, hpasses''⟩ := hagrees.complete _ _ hstream
    refine ⟨hflows, ?_, hfits, ?_⟩
    · obtain ⟨hdr', runs, hhdr', hproven'⟩ := passes_iff.mp hpasses'
      obtain ⟨g, tail'', heq, -, hhonest''⟩ := hproven'.hints_eq
      cases heq
      rw [hhonest'.runs_eq hhonest'']
      exact fun run hrun => (hproven'.runs_read run hrun).2
    · by_contra hmany
      obtain ⟨hdr', runs, hhdr', hproven'⟩ := passes_iff.mp hpasses''
      rw [hhdr] at hhdr'
      cases hhdr'
      obtain ⟨hcoins, hnet, hbase⟩ := read_header_coins hhdr
      have hsum : Hint.genesis.coins + coin_count (hinted_runs every gs).flatten < 2 ^ 64 := by
        rw [hinted_runs_flatten, hparsed.coins]
        simpa [Hint.genesis] using hcoins
      obtain ⟨bytes', hencode', hdecode'⟩ :=
        Hints.decode_encode (h := ⟨file.length, hdr, .genesis :: tail'⟩) hfile hnet hbase
        hcoins (List.forall_mem_cons.mpr ⟨genesis_fits, hhonest'.fits hfile hsum⟩)
      rw [hencode'] at hencode
      cases hencode
      rw [hdecode'] at hdecode
      cases hdecode
      have hlen := hhonest'.length
      refine not_proven_of_cut (k := (Hint.genesis :: tail').length % 2 ^ 32) (g := .genesis)
        (by rw [hinted_runs_flatten]; exact hparsed) (hinted_runs_ne every hparsed.walk) rfl hhonest' ?_ rfl hproven'
      refine (Nat.mod_lt _ (by decide)).trans_le ?_
      rw [List.length_cons, hlen]
      omega
  · intro heven
    constructor
    · intro threads hints done hdone out hout
      obtain ⟨hdr, runs, hhdr, hproven, hreport⟩ := (verify_hinted_iff hdone out.report).mp ⟨out, hout, rfl⟩
      rcases heven hdr _ hhdr hproven.parsed with ⟨p, hp, hblocked⟩ | ⟨hflows, -, hfits, -⟩
      · exact absurd hblocked (hproven.not_blocked hp)
      · obtain ⟨out', hints', hstream⟩ := verify_stream_complete hhdr hproven.parsed hflows hfits
        obtain ⟨gs, tail, hparsed, -, -, -, -, hreport'⟩ := verify_stream_sound hhdr hstream
        obtain rfl := hproven.parsed.unique hparsed
        exact ⟨out', hints', hstream, hreport'.trans hreport.symm⟩
    · intro out hints hstream
      have hhdr : ∃ hdr, read_header file = .ok hdr := by
        obtain ⟨hdr, hhdr, -⟩ := except_bind_ok_iff.mp hstream
        exact ⟨hdr, hhdr⟩
      obtain ⟨hdr, hhdr⟩ := hhdr
      obtain ⟨gs, tail, hparsed, hflows, -, hhonest, rfl, -⟩ := verify_stream_sound hhdr hstream
      rcases heven hdr gs hhdr hparsed with ⟨p, hp, hblocked⟩ | ⟨-, hruns, -, hfew⟩
      · exact absurd (blocked_self (hparsed.walk.mem hp).1 hblocked) (hflows p hp)
      obtain ⟨hcoins, hnet, hbase⟩ := read_header_coins hhdr
      have hsum : Hint.genesis.coins + coin_count (hinted_runs every gs).flatten < 2 ^ 64 := by
        rw [hinted_runs_flatten, hparsed.coins]
        simpa [Hint.genesis] using hcoins
      obtain ⟨bytes, hencode, hdecode⟩ :=
        Hints.decode_encode (h := ⟨file.length, hdr, .genesis :: tail⟩) hfile hnet hbase
        hcoins (List.forall_mem_cons.mpr ⟨genesis_fits, hhonest.fits hfile hsum⟩)
      have hall : (Hint.genesis :: tail).take ((Hint.genesis :: tail).length % 2 ^ 32) = .genesis :: tail := by
        rw [Nat.mod_eq_of_lt (by rw [List.length_cons, hhonest.length]; exact hfew), List.take_length]
      rw [hall] at hdecode
      refine ⟨passes_iff.mpr ⟨hdr, _, hhdr, proven_of_stream hparsed hruns (by decide) hhonest⟩, bytes, _,
        hencode, hdecode,
        passes_iff.mpr ⟨hdr, _, hhdr, proven_of_stream hparsed hruns (by decide) hhonest.cleaned⟩⟩

end Exact

namespace Phases

omit [ShaKernel] [PublicKeys] in
theorem not_blocked_self : ¬∃ p ∈ places, Blocked p.off p := by
  rintro ⟨p, hp, k, hgt, hend⟩
  rw [max_group_eq, read_block_eq] at hgt
  rw [read_block_eq] at hend
  rcases places_span p hp with hshort | ⟨hoff, hlen⟩
  · rw [max_group_eq] at hshort
    omega
  · rw [align_down, ALIGN] at hgt hend
    omega

omit [ShaKernel] [PublicKeys] in
theorem blocked_header : ∃ p ∈ places, Blocked HEADER_LEN p := by
  obtain ⟨p, hp, hoff, hlen⟩ := large_placed
  exact ⟨p, hp, 3, by rw [hoff]; decide, by rw [hoff, hlen]; decide⟩

end Phases

end

local instance : ShaKernel := ⟨fun h _ => h, id⟩

local instance : PublicKeys :=
  ⟨fun _ => false, fun _ _ => none, PublicKeys.length_of_none, PublicKeys.none_of_point⟩

theorem hinted_exact_large : Phases.file.length < 2 ^ 64 ∧ ¬Agrees Phases.file 0 1 1 := by
  have hfile : Phases.file.length < 2 ^ 64 := by
    rw [Phases.length_file]
    decide
  refine ⟨hfile, fun hagrees => ?_⟩
  rcases (hinted_exact Phases.file hfile 0 1 1).mp hagrees _ _ Phases.read_header_file
    (Phases.parsed_file 0 (by decide)) with hself | ⟨hflows, -⟩
  · exact Phases.not_blocked_self hself
  · obtain ⟨p, hp, hblocked⟩ := Phases.blocked_header
    exact hflows p hp hblocked

theorem hints_pass_refused_body : (∃ hints done out, HintedResults Phases.file 1 0 hints 1 done ∧
    verify_hinted Phases.file hints 1 done = .ok out) ∧
    ∀ every result, verify_stream Phases.file 0 every 1 ≠ .ok result := by
  have hparsed := @Phases.parsed_file 0 _ 1 (by decide)
  constructor
  · obtain ⟨hints, hpasses⟩ := passes_own Phases.read_header_file hparsed Phases.not_blocked_self
    obtain ⟨done, hdone⟩ :=
      Pool.taken_exists (interval_job Phases.file 0 1 hints.hints) (hints.hints.length - 1) (max 1 1)
    obtain ⟨out, hout⟩ := hpasses 1 done hdone
    exact ⟨hints, done, out, hdone, hout⟩
  · rintro every ⟨out, hints⟩ hstream
    obtain ⟨gs, tail, hparsed', hflows, -⟩ := verify_stream_sound Phases.read_header_file hstream
    obtain rfl := hparsed'.unique hparsed
    obtain ⟨p, hp, hblocked⟩ := Phases.blocked_header
    exact hflows p hp hblocked

end AvilaNode.Snapshot
