import AvilaNode.SnapshotStitch

/-! A stitched scan against one pass over the body, for every split. -/

namespace AvilaNode.Snapshot

open ByteStrings ByteReader

variable [PublicKeys] {file : List UInt8} {base_height bucket : ℕ} {hdr : Header} {gs : List Placed}

section Starts

omit [PublicKeys]

variable {len : ℕ}

theorem starts_fold (found front : List ℕ) (last : ℕ) (hsorted : (front ++ [last]).Pairwise (· < ·)) :
    ∃ more, found.foldl (fun starts b => if starts.getLastD HEADER_LEN < b ∧ b < len then starts ++ [b] else starts)
        (front ++ [last]) = front ++ [last] ++ more ∧
      (front ++ [last] ++ more).Pairwise (· < ·) ∧ (∀ t ∈ more, t < len) := by
  induction found generalizing front last with
  | nil => exact ⟨[], by simp, by simpa using hsorted, by simp⟩
  | cons b found ih =>
    rw [List.foldl_cons, List.getLastD_concat]
    by_cases hb : last < b ∧ b < len
    · rw [if_pos hb]
      have hbigger : ∀ t ∈ front ++ [last], t < b := by
        intro t ht
        rcases List.mem_append.mp ht with hfront | hsame
        · exact ((List.pairwise_append.mp hsorted).2.2 t hfront last (by simp)).trans hb.1
        · rw [List.mem_singleton.mp hsame]
          exact hb.1
      obtain ⟨more, heq, hpair, hlt⟩ := ih (front ++ [last]) b
        (List.pairwise_append.mpr ⟨hsorted, List.pairwise_singleton _ _, fun t ht c hc => by
          rw [List.mem_singleton.mp hc]
          exact hbigger t ht⟩)
      refine ⟨b :: more, ?_, ?_, List.forall_mem_cons.mpr ⟨hb.2, hlt⟩⟩
      · rw [heq]
        simp
      · simpa using hpair
    · rw [if_neg hb]
      exact ih front last hsorted

def region_stops (len : ℕ) (found : List (Except ScanError ℕ)) : List ℕ := (region_starts len found).tail

theorem region_starts_eq (len : ℕ) (found : List (Except ScanError ℕ)) :
    region_starts len found = HEADER_LEN :: region_stops len found ∧
      (HEADER_LEN :: region_stops len found).Pairwise (· < ·) ∧ ∀ t ∈ region_stops len found, t < len := by
  obtain ⟨more, heq, hpair, hlt⟩ := @starts_fold len (found.filterMap Except.toOption) [] HEADER_LEN (by simp)
  have hstarts : region_starts len found = HEADER_LEN :: more := heq
  have hstops : region_stops len found = more := by rw [region_stops, hstarts, List.tail_cons]
  rw [hstarts, hstops]
  exact ⟨rfl, hpair, hlt⟩

theorem region_stops_cons {len b : ℕ} (hb : HEADER_LEN < b) (hlt : b < len) (found : List (Except ScanError ℕ)) :
    b ∈ region_stops len (.ok b :: found) := by
  obtain ⟨more, heq, -, -⟩ := @starts_fold len (found.filterMap Except.toOption) [HEADER_LEN] b (by simpa using hb)
  have hstarts : region_starts len (.ok b :: found) = HEADER_LEN :: b :: more := by
    rw [region_starts, List.filterMap_cons_some (f := Except.toOption) rfl, List.foldl_cons, List.getLastD_cons,
      List.getLastD_nil,
      if_pos ⟨hb, hlt⟩]
    exact heq
  rw [region_stops, hstarts]
  exact List.mem_cons_self

theorem region_stops_sorted {offs : List ℕ} (hsorted : (HEADER_LEN :: offs).Pairwise (· < ·))
    (hlt : ∀ t ∈ offs, t < len) : region_stops len (offs.map .ok) = offs := by
  have hkeep (front offs : List ℕ) (last : ℕ) (hsorted : (last :: offs).Pairwise (· < ·))
    (hlt : ∀ t ∈ offs, t < len) :
      offs.foldl (fun starts b => if starts.getLastD HEADER_LEN < b ∧ b < len then starts ++ [b] else starts)
        (front ++ [last]) = front ++ last :: offs := by
    induction offs generalizing front last with
    | nil => rfl
    | cons b offs ih =>
      obtain ⟨hfirst, hsorted⟩ := List.pairwise_cons.mp hsorted
      obtain ⟨hb, hlt⟩ := List.forall_mem_cons.mp hlt
      rw [List.foldl_cons, List.getLastD_concat, if_pos ⟨hfirst b List.mem_cons_self, hb⟩,
        ih (front ++ [last]) b hsorted hlt,
        List.append_assoc]
      rfl
  have hoffs : (offs.map (Except.ok (ε := ScanError))).filterMap Except.toOption = offs := by
    rw [List.filterMap_map]
    exact List.filterMap_some
  have hstarts : region_starts len (offs.map .ok) = HEADER_LEN :: offs := by
    rw [region_starts, hoffs]
    exact hkeep [] offs HEADER_LEN hsorted hlt
  rw [region_stops, hstarts, List.tail_cons]

theorem region_pairs {a : ℕ} {stops : List ℕ} (hsorted : (a :: stops).Pairwise (· < ·)) (hlt : ∀ t ∈ stops, t < len)
    (ha : a ≤ len) : (∀ p ∈ (a :: stops).zip (stops ++ [len]), p.1 ≤ p.2 ∧ p.2 ≤ len) ∧
      ((a :: stops).zip (stops ++ [len])).map (·.2) = stops ++ [len] := by
  induction stops generalizing a with
  | nil => simpa using ha
  | cons b stops ih =>
    obtain ⟨hfirst, hsorted⟩ := List.pairwise_cons.mp hsorted
    obtain ⟨hb, hlt⟩ := List.forall_mem_cons.mp hlt
    obtain ⟨hpairs, hmap⟩ := ih hsorted hlt hb.le
    rw [List.cons_append, List.zip_cons_cons, List.map_cons, hmap]
    exact ⟨List.forall_mem_cons.mpr ⟨⟨(hfirst b List.mem_cons_self).le, hb.le⟩, hpairs⟩, rfl⟩

theorem zip_scanned {α β γ : Type} (f : α → β → γ) (as : List α) (bs : List β) :
    ((as.zip bs).map fun p => f p.1 p.2).zip bs = (as.zip bs).map fun p => (f p.1 p.2, p.2) := by
  induction as generalizing bs with
  | nil => simp
  | cons a as ih =>
    cases bs with
    | nil => simp
    | cons b bs => simp [ih]

end Starts

section Body

/-- A body of groups from the header to the end, in order, of as many coins as the header says. -/
structure Parsed (file : List UInt8) (base_height bucket : ℕ) (hdr : Header) (gs : List Placed) : Prop where
  walk : Walk file base_height HEADER_LEN gs file.length
  ascending : Ascending none gs
  has_bucket : gs ≠ [] → bucket ≠ 0
  ended : check_end hdr file.length file.length (tally bucket (empty_region HEADER_LEN, none) gs).1.coins
    (tally bucket (empty_region HEADER_LEN, none) gs).1.last_n
    (tally bucket (empty_region HEADER_LEN, none) gs).1.groups =
      .ok ()

def outcome (result : Except ScanError ScanOut) : Option (ℕ × ℕ × List (List UInt8 × ℕ)) :=
  result.toOption.map fun out => (out.coins, out.groups, out.sparse)

def counted (bucket : ℕ) (gs : List Placed) : ℕ × ℕ × List (List UInt8 × ℕ) :=
  let r := (tally bucket (empty_region HEADER_LEN, none) gs).1
  (r.coins, r.groups, r.sparse)

omit [PublicKeys] in
theorem outcome_eq_some {result : Except ScanError ScanOut} {counts : ℕ × ℕ × List (List UInt8 × ℕ)} :
    outcome result = some counts ↔ ∃ out, result = .ok out ∧ (out.coins, out.groups, out.sparse) = counts := by
  rw [outcome, Option.map_eq_some_iff]
  cases result <;> simp [Except.toOption]

theorem Parsed.unique {gs' : List Placed} (h : Parsed file base_height bucket hdr gs)
    (h' : Parsed file base_height bucket hdr gs') : gs = gs' := h.walk.unique h'.walk

theorem stitch_iff (hlen : HEADER_LEN ≤ file.length) (found : List (Except ScanError ℕ))
    (counts : ℕ × ℕ × List (List UInt8 × ℕ)) : outcome (stitch file base_height bucket hdr found) = some counts ↔
      ∃ gs, Parsed file base_height bucket hdr gs ∧
        Regions file base_height HEADER_LEN (region_stops file.length found ++ [file.length]) gs file.length ∧
        counts = counted bucket gs := by
  obtain ⟨hstarts, hsorted, hlt⟩ := region_starts_eq file.length found
  obtain ⟨hpairs, hmap⟩ := region_pairs hsorted hlt hlen
  have hfold : stitch file base_height bucket hdr found =
      (scanned_pairs file base_height bucket
        ((HEADER_LEN :: region_stops file.length found).zip (region_stops file.length found ++ [file.length]))).foldlM
        (stitch_region file base_height bucket) ⟨⟨0, 0, [], 0, 0⟩, HEADER_LEN, none, 0, none⟩ >>= fun st =>
          check_end hdr file.length st.stop st.out.coins st.last_n st.out.groups >>= fun _ => pure st.out := by
    rw [stitch, hstarts, List.tail_cons, zip_scanned (fun a b => scan_region file a b base_height bucket),
      scanned_pairs]
  obtain ⟨hsound, hcomplete⟩ := stitch_fold_ok_iff base_height hpairs (stitched_nil bucket) hlen
  rw [hmap] at hsound hcomplete
  rw [outcome_eq_some, hfold]
  constructor
  · rintro ⟨out, hok, rfl⟩
    obtain ⟨st, hst, hok⟩ := except_bind_ok_iff.mp hok
    obtain ⟨⟨⟩, hend, hout⟩ := except_bind_ok_iff.mp hok
    obtain rfl := Except.ok.inj hout
    obtain ⟨gs, hregions, hasc, hbucket, hstitched⟩ := hsound st hst
    rw [List.nil_append] at hstitched
    have hstop := hregions.ends
    rw [hstop] at hregions hend
    rw [hstitched.coins, hstitched.last_n, hstitched.groups] at hend
    refine ⟨gs, ⟨hregions.walk hlen, hasc, hbucket, hend⟩, hregions, ?_⟩
    rw [hstitched.coins, hstitched.groups, hstitched.sparse]
    rfl
  · rintro ⟨gs, hparsed, hregions, rfl⟩
    obtain ⟨st, hst, hstop, hstitched⟩ := hcomplete gs _ hregions hparsed.ascending hparsed.has_bucket
    rw [List.nil_append] at hstitched
    refine ⟨st.out, except_bind_ok_iff.mpr ⟨st, hst, except_bind_ok_iff.mpr ⟨(), ?_, rfl⟩⟩, ?_⟩
    · rw [hstop, hstitched.coins, hstitched.last_n, hstitched.groups]
      exact hparsed.ended
    · rw [hstitched.coins, hstitched.groups, hstitched.sparse]
      rfl

theorem parse_body_iff (hhdr : read_header file = .ok hdr) (hlen : HEADER_LEN ≤ file.length)
    (counts : ℕ × ℕ × List (List UInt8 × ℕ)) : outcome (parse_body file base_height bucket) = some counts ↔
      ∃ gs, Parsed file base_height bucket hdr gs ∧ (∀ p ∈ gs, ¬Blocked HEADER_LEN p) ∧
        counts = counted bucket gs := by
  obtain ⟨hsound, hcomplete⟩ := scan_region_eq base_height bucket hlen le_rfl
  have hbody : parse_body file base_height bucket =
    scan_region file HEADER_LEN file.length base_height bucket >>= fun r =>
      check_end hdr file.length r.stop r.coins r.last_n r.groups >>= fun _ =>
        pure ⟨r.coins, r.groups, r.sparse, 0, r.read⟩ := by
    rw [parse_body, hhdr]
    rfl
  rw [outcome_eq_some, hbody]
  constructor
  · rintro ⟨out, hok, rfl⟩
    obtain ⟨r, hr, hok⟩ := except_bind_ok_iff.mp hok
    obtain ⟨⟨⟩, hend, hout⟩ := except_bind_ok_iff.mp hok
    obtain rfl := Except.ok.inj hout
    obtain ⟨gs, hscanned, hregion⟩ := hsound r hr
    have hpass := hscanned.pass
    have hstop : r.stop = file.length := by
      have hle := hpass.walk.le.2
      rcases hpass.ended with ⟨t, ht, hge⟩ | ⟨-, hsame⟩
      · cases ht
        omega
      · exact hsame
    rw [hstop] at hpass hend
    have hcoins : r.coins = (tally bucket (empty_region HEADER_LEN, none) gs).1.coins := by rw [hregion]; rfl
    have hgroups : r.groups = (tally bucket (empty_region HEADER_LEN, none) gs).1.groups := by rw [hregion]; rfl
    have hlast : r.last_n = (tally bucket (empty_region HEADER_LEN, none) gs).1.last_n := by rw [hregion]; rfl
    have hsparse : r.sparse = (tally bucket (empty_region HEADER_LEN, none) gs).1.sparse := by rw [hregion]; rfl
    rw [hcoins, hgroups, hlast] at hend
    refine ⟨gs, ⟨hpass.walk, hscanned.ascending, hscanned.bucket, hend⟩, hpass.flows, ?_⟩
    rw [hcoins, hgroups, hsparse]
    rfl
  · rintro ⟨gs, hparsed, hflows, rfl⟩
    have hbefore : ∀ p ∈ gs, p.off < file.length := by
      intro p hp
      have := hparsed.walk.mem hp
      omega
    obtain ⟨read, hr⟩ := hcomplete gs file.length
      ⟨⟨hparsed.walk, fun p hp t ht => by cases ht; exact hbefore p hp, Or.inl ⟨_, rfl, le_rfl⟩, hflows⟩,
        hparsed.ascending, hparsed.has_bucket⟩
    exact ⟨_, except_bind_ok_iff.mpr ⟨_, hr, except_bind_ok_iff.mpr ⟨(), hparsed.ended, rfl⟩⟩, rfl⟩

end Body

section Exact

def Steady (gs : List Placed) : Prop :=
  (∃ p ∈ gs, Blocked p.off p) ∨ ∀ p ∈ gs, ∀ q ∈ gs, q.off ≤ p.off → ¬Blocked q.off p

omit [PublicKeys] in
theorem read_header_length (h : read_header file = .ok hdr) : HEADER_LEN ≤ file.length := by
  by_contra hshort
  rw [read_header, if_pos (by omega)] at h
  cases h

theorem stitch_steady (hhdr : read_header file = .ok hdr)
    (hsteady : ∀ gs, Parsed file base_height bucket hdr gs → Steady gs) (found : List (Except ScanError ℕ)) :
    outcome (stitch file base_height bucket hdr found) = outcome (parse_body file base_height bucket) := by
  have hlen := read_header_length hhdr
  refine Option.ext fun counts => ?_
  rw [stitch_iff hlen, parse_body_iff hhdr hlen]
  constructor
  · rintro ⟨gs, hparsed, hregions, hcounts⟩
    refine ⟨gs, hparsed, ?_, hcounts⟩
    rcases hsteady gs hparsed with ⟨p, hp, hblocked⟩ | hflow
    · obtain ⟨r, hr, hfree⟩ := hregions.flows hp
      exact absurd (blocked_self hr hblocked) hfree
    · intro p hp
      obtain ⟨q, hq, hoff⟩ := first_off hparsed.walk hp
      rw [← hoff]
      exact hflow p hp q hq (hoff ▸ (hparsed.walk.mem hp).1)
  · rintro ⟨gs, hparsed, hflows, hcounts⟩
    refine ⟨gs, hparsed, ?_, hcounts⟩
    obtain ⟨-, hsorted, hlt⟩ := region_starts_eq file.length found
    refine regions_exist hparsed.walk (List.pairwise_cons.mp hsorted).2 hlt ?_
    intro p hp q hq hle _
    rcases hsteady gs hparsed with ⟨p', hp', hblocked⟩ | hflow
    · exact absurd (blocked_self (hparsed.walk.mem hp').1 hblocked) (hflows p' hp')
    · exact hflow p hp q hq hle

theorem Walk.sorted {data : List UInt8} {a b : ℕ} (h : Walk data base_height a gs b) :
    (gs.map Placed.off).Pairwise (· < ·) := by
  induction h with
  | nil _ => exact List.Pairwise.nil
  | cons hoff h hw ih =>
    refine List.pairwise_cons.mpr ⟨?_, ih⟩
    intro t ht
    obtain ⟨q, hq, rfl⟩ := List.mem_map.mp ht
    have hge := (hw.mem hq).1
    have hlen := (window_group_len h).1
    omega

section

variable (hhdr : read_header file = .ok hdr)
include hhdr

theorem stitch_every (hparsed : Parsed file base_height bucket hdr gs) (hself : ∀ p ∈ gs, ¬Blocked p.off p) :
    outcome (stitch file base_height bucket hdr (gs.tail.map fun p => .ok p.off)) = some (counted bucket gs) := by
  refine (stitch_iff (read_header_length hhdr) _ _).mpr ⟨gs, hparsed, ?_, rfl⟩
  have hsorted := hparsed.walk.sorted
  have hwithin : ∀ p ∈ gs, p.off < file.length := fun p hp => by
    have := hparsed.walk.mem hp
    omega
  have hstops : region_stops file.length (gs.tail.map fun p => .ok p.off) = gs.tail.map Placed.off := by
    have hmap : (gs.tail.map fun p => Except.ok (ε := ScanError) p.off) = (gs.tail.map Placed.off).map .ok := by
      rw [List.map_map]
      rfl
    rw [hmap]
    refine region_stops_sorted ?_ ?_
    · cases gs with
      | nil => exact List.pairwise_singleton _ _
      | cons p gs =>
        rw [← hparsed.walk.head.1]
        exact hsorted
    · intro t ht
      obtain ⟨p, hp, rfl⟩ := List.mem_map.mp ht
      exact hwithin p (List.mem_of_mem_tail hp)
  rw [hstops]
  refine regions_exist hparsed.walk ?_ ?_ ?_
  · rw [List.map_tail]
    exact hsorted.tail
  · intro t ht
    obtain ⟨p, hp, rfl⟩ := List.mem_map.mp ht
    exact hwithin p (List.mem_of_mem_tail hp)
  · intro p hp q hq hle hnone
    -- no other group lies between, so the region begins at the group itself
    have hsame : q.off = p.off := by
      by_contra hne
      have htail : p ∈ gs.tail := by
        cases gs with
        | nil => cases hp
        | cons first gs =>
          rcases List.mem_cons.mp hp with rfl | hp
          · have hfirst := hparsed.walk.head.1
            have hge := (hparsed.walk.mem hq).1
            omega
          · exact hp
      exact hnone p.off (List.mem_map_of_mem htail) ⟨by omega, le_rfl⟩
    rw [hsame]
    exact hself p hp

theorem stitch_one (hparsed : Parsed file base_height bucket hdr gs) {p q : Placed} (hp : p ∈ gs) (hq : q ∈ gs)
    (hle : q.off ≤ p.off) (hfirst : HEADER_LEN < q.off) {counts}
    (h : outcome (stitch file base_height bucket hdr [.ok q.off]) = some counts) : ¬Blocked q.off p := by
  have hlt : q.off < file.length := by
    have := hparsed.walk.mem hq
    omega
  obtain ⟨gs', hparsed', hregions, -⟩ := (stitch_iff (read_header_length hhdr) _ _).mp h
  obtain rfl := hparsed.unique hparsed'
  have hstops : region_stops file.length [.ok q.off] = [q.off] :=
    @region_stops_sorted file.length [q.off] (by simpa using hfirst) (by simpa using hlt)
  rw [hstops] at hregions
  cases hregions with
  | cons hpass hmore =>
    rename_i c front back
    have hwalk := hmore.walk hpass.walk.le.2
    have hback {x : Placed} (hx : x ∈ front ++ back) (hge : q.off ≤ x.off) : x ∈ back := by
      rcases List.mem_append.mp hx with hx | hx
      · have := hpass.before x hx _ rfl
        omega
      · exact hx
    -- the first region ends where the split is
    have hc : c = q.off := by
      have hge := (hwalk.mem (hback hq le_rfl)).1
      rcases hpass.ended with ⟨t, ht, hle⟩ | ⟨-, hend⟩
      · cases ht
        omega
      · omega
    cases hmore with
    | cons hpass hnil =>
      cases hnil
      rw [← hc]
      exact hpass.flows p (by simpa using hback hp hle)

theorem scan_eq_stitch (threads base_height bucket : ℕ) :
    scan file threads base_height bucket =
      stitch file base_height bucket hdr (candidates file threads base_height) := by
  rw [scan, hhdr]
  rfl

end

/-- A scan that succeeds has read the body group after group; it succeeds as one pass over the body does, for every
split, exactly where groups are steady. -/
theorem scan_exact (file : List UInt8) (base_height bucket : ℕ) :
    (∀ threads counts, outcome (scan file threads base_height bucket) = some counts →
      ∃ hdr gs, read_header file = .ok hdr ∧ Parsed file base_height bucket hdr gs ∧ counts = counted bucket gs) ∧
    (((∀ threads, outcome (scan file threads base_height bucket) = outcome (parse_body file base_height bucket)) ∧
      ∀ hdr found, read_header file = .ok hdr →
        outcome (stitch file base_height bucket hdr found) = outcome (parse_body file base_height bucket)) ↔
    ∀ hdr gs, read_header file = .ok hdr → Parsed file base_height bucket hdr gs → Steady gs) := by
  refine ⟨?_, ?_, ?_⟩
  · intro threads counts h
    cases hhdr : read_header file with
    | error e =>
      rw [scan, hhdr] at h
      cases h
    | ok hdr =>
      rw [scan_eq_stitch hhdr] at h
      obtain ⟨gs, hparsed, -, hcounts⟩ := (stitch_iff (read_header_length hhdr) _ _).mp h
      exact ⟨hdr, gs, rfl, hparsed, hcounts⟩
  · rintro ⟨-, hsplit⟩ hdr gs hhdr hparsed
    by_cases hself : ∃ p ∈ gs, Blocked p.off p
    · exact Or.inl hself
    right
    intro p hp q hq hle hblocked
    have hevery := stitch_every hhdr hparsed fun p hp h => hself ⟨p, hp, h⟩
    rw [hsplit hdr _ hhdr] at hevery
    rcases (hparsed.walk.mem hq).1.eq_or_lt with hfirst | hfirst
    · obtain ⟨gs', hparsed', hflows, -⟩ := (parse_body_iff hhdr (read_header_length hhdr) _).mp hevery
      obtain rfl := hparsed.unique hparsed'
      exact hflows p hp (hfirst ▸ hblocked)
    · rw [← hsplit hdr [.ok q.off] hhdr] at hevery
      exact stitch_one hhdr hparsed hp hq hle hfirst hevery hblocked
  · intro hsteady
    refine ⟨?_, fun hdr found hhdr => stitch_steady hhdr (fun gs => hsteady hdr gs hhdr) found⟩
    intro threads
    cases hhdr : read_header file with
    | error e => rw [scan, parse_body, hhdr]; rfl
    | ok hdr =>
      rw [scan_eq_stitch hhdr]
      exact stitch_steady hhdr (fun gs => hsteady hdr gs hhdr) _

end Exact

end AvilaNode.Snapshot
