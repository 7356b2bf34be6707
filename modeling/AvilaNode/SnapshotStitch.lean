import AvilaNode.SnapshotScan
import AvilaNode.SnapshotWalk

/-! Regions that are stitched are one pass, for every guess at their starts, where blocks treat a group alike. -/

namespace AvilaNode.Snapshot

open ByteStrings ByteReader

variable [PublicKeys]

section Tally

def add_group (bucket : ℕ) (acc : Region × Option ℕ) (p : Placed) : Region × Option ℕ :=
  let b := (p.off - HEADER_LEN) / bucket
  ({ acc.1 with
    first_txid := some (acc.1.first_txid.getD p.group.txid), last_txid := some p.group.txid,
    sparse := if some b ≠ acc.2 then acc.1.sparse ++ [(p.group.txid, p.off)] else acc.1.sparse,
    coins := acc.1.coins + p.group.n, groups := acc.1.groups + 1, last_n := p.group.n }, some b)

def tally (bucket : ℕ) (acc : Region × Option ℕ) (gs : List Placed) : Region × Option ℕ :=
    gs.foldl (add_group bucket) acc

def Ascending : Option (List UInt8) → List Placed → Prop
  | _, [] => True
  | last, p :: gs => (last.any fun t => txid_le p.group.txid t) = false ∧ Ascending (some p.group.txid) gs

def last_of (last : Option (List UInt8)) (gs : List Placed) : Option (List UInt8) :=
  gs.foldl (fun _ p => some p.group.txid) last

omit [PublicKeys]

theorem ascending_append (last : Option (List UInt8)) (gs more : List Placed) :
    Ascending last (gs ++ more) ↔ Ascending last gs ∧ Ascending (last_of last gs) more := by
  induction gs generalizing last with
  | nil => simp [Ascending, last_of]
  | cons p gs ih =>
    rw [List.cons_append, Ascending, Ascending, ih, and_assoc]
    rfl

theorem tally_append (bucket : ℕ) (acc : Region × Option ℕ) (gs more : List Placed) :
    tally bucket acc (gs ++ more) = tally bucket (tally bucket acc gs) more := List.foldl_append

theorem tally_last (bucket : ℕ) (acc : Region × Option ℕ) (gs : List Placed) :
    (tally bucket acc gs).1.last_txid = last_of acc.1.last_txid gs := by
  induction gs generalizing acc with
  | nil => rfl
  | cons p gs ih => exact ih (add_group bucket acc p)

theorem push_group_ok_iff (bucket : ℕ) (acc acc' : Region × Option ℕ) (p : Placed) :
    push_group bucket acc p.off p.group = .ok acc' ↔
      (acc.1.last_txid.any fun t => txid_le p.group.txid t) = false ∧ bucket ≠ 0 ∧ acc' = add_group bucket acc p := by
  rw [push_group]
  cases hlast : (acc.1.last_txid.any fun t => txid_le p.group.txid t) with
  | true =>
    rw [if_pos rfl]
    simp [invalid]
  | false =>
    rw [if_neg Bool.false_ne_true, bucket_of]
    by_cases hb : bucket = 0
    · rw [if_pos hb]
      simp [bind, Except.bind, hb]
    · rw [if_neg hb]
      simp only [bind, Except.bind, pure, Except.pure, Except.ok.injEq, true_and, ne_eq, hb, not_false_eq_true]
      exact eq_comm

theorem push_all_ok_iff (bucket : ℕ) (acc acc' : Region × Option ℕ) (gs : List Placed) :
    push_all (push_group bucket) acc gs = .ok acc' ↔
      Ascending acc.1.last_txid gs ∧ (gs ≠ [] → bucket ≠ 0) ∧ acc' = tally bucket acc gs := by
  induction gs generalizing acc with
  | nil =>
    rw [push_all, List.foldlM_nil]
    simp only [pure, Except.pure, Except.ok.injEq, Ascending, ne_eq, not_true_eq_false, false_imp_iff, true_and]
    exact eq_comm
  | cons p gs ih =>
    rw [push_all_cons, Ascending]
    simp only [push_group_ok_iff, ih]
    constructor
    · rintro ⟨next, ⟨hlast, hb, rfl⟩, hasc, -, rfl⟩
      exact ⟨⟨hlast, hasc⟩, fun _ => hb, rfl⟩
    · rintro ⟨⟨hlast, hasc⟩, hb, rfl⟩
      have hb' := hb (List.cons_ne_nil p gs)
      exact ⟨_, ⟨hlast, hb', rfl⟩, hasc, fun _ => hb', rfl⟩

end Tally

section Regions

variable {file : List UInt8} {start : ℕ}

omit [PublicKeys] in
theorem align_down_le (x : ℕ) : align_down x ≤ x ∧ x < align_down x + ALIGN := by
  rw [align_down, ALIGN]
  omega

omit [PublicKeys] in
theorem open_stream (hstart : start ≤ file.length) {limit : ℕ} (hlimit : start ≤ limit)
    (haligned : file.length ≤ limit ∨ ALIGN ∣ limit) (hlt : align_down start < min limit file.length) :
    ∃ s, (Stream.new file.length start limit).fill file = .ok (true, s) ∧ s.Sound file start ∧ s.off = start ∧
      s.limit = min limit file.length := by
  have hfirst := align_down_le start
  have hbase : (⟨[], align_down start, 0, align_down start, min limit file.length, false, false, 0⟩ :
    Stream).Sound file
      start := by
    refine ⟨Nat.min_le_right _ _, ?_, le_rfl, hlt.le, by simp, Or.inr ⟨0, by simp⟩, rfl, by simp, rfl, ?_⟩
    · rcases haligned with hle | hdvd
      · exact Or.inl (Nat.min_eq_right hle)
      · by_cases hle : file.length ≤ limit
        · exact Or.inl (Nat.min_eq_right hle)
        · exact Or.inr (by rwa [Nat.min_eq_left (by omega)])
    · intro k hk
      dsimp only at hk ⊢
      omega
  obtain ⟨hlen, -⟩ := hbase.block_length hlt
  obtain ⟨s, hfill, hs, hoff, hl, hnext⟩ := hbase.fill_more (by simp) hlt
  dsimp only at hlen hoff hl hnext
  have hskip : start - align_down start ≤ s.window.length := by
    rw [hs.length_window, hoff]
    rw [Stream.fill, if_neg Bool.false_ne_true, if_neg (by simp), if_neg (by simp; omega)] at hfill
    have hsame := (Prod.mk.inj (Except.ok.inj hfill)).2
    have hn : s.next = align_down start + min READ_BLOCK (min limit file.length - align_down start) := by
      rw [← hsame]
      exact congrArg (align_down start + ·) hlen
    rw [hn, read_block_eq]
    rw [ALIGN] at hfirst
    omega
  refine ⟨s.consume (start - align_down start), ?_, hs.consume hskip, ?_, hl⟩
  · rw [Stream.fill, if_neg Bool.false_ne_true, if_neg (by simp), if_neg (by simp; omega)] at hfill
    have hsame := (Prod.mk.inj (Except.ok.inj hfill)).2
    have hmore := (Prod.mk.inj (Except.ok.inj hfill)).1
    rw [← hsame] at hskip ⊢
    rw [Stream.new, Stream.fill, if_neg Bool.false_ne_true, if_neg (by simp), if_neg (by simp; omega)]
    simp only [Stream.consume, List.nil_append, Nat.zero_min, List.drop_zero, Nat.add_zero,
      Nat.sub_self] at hmore hskip ⊢
    rw [hmore, Nat.min_eq_left hskip, Nat.sub_self]
  · change s.off + (start - align_down start) = start
    omega

structure Scanned (file : List UInt8) (base_height bucket start stop : ℕ) (gs : List Placed) (b : ℕ) : Prop where
  pass : Pass file base_height start (some stop) true start gs b
  ascending : Ascending none gs
  bucket : gs ≠ [] → bucket ≠ 0

def region_of (bucket start : ℕ) (gs : List Placed) (b read : ℕ) : Region :=
  { (tally bucket (empty_region start, none) gs).1 with stop := b, read := read }

theorem scan_region_eq (base_height bucket : ℕ) {stop : ℕ} (hstart : start ≤ file.length)
    (hstop : stop ≤ file.length) :
    (∀ r, scan_region file start stop base_height bucket = .ok r →
      ∃ gs, Scanned file base_height bucket start stop gs r.stop ∧ r = region_of bucket start gs r.stop r.read) ∧
    ∀ gs b, Scanned file base_height bucket start stop gs b →
      ∃ read, scan_region file start stop base_height bucket = .ok (region_of bucket start gs b read) := by
  have htake : file.take file.length = file := List.take_length
  by_cases hlt : align_down start < file.length
  · obtain ⟨s, hfill, hs, hoff, hlimit⟩ := open_stream hstart hstart (Or.inl le_rfl) (by rwa [Nat.min_self])
    rw [Nat.min_self] at hlimit
    have hloop (acc acc' : Region × Option ℕ) (b : ℕ) :
        (∃ s', group_loop file base_height (some stop) true (push_group bucket) (loop_turns file) s acc =
          .ok (s', acc') ∧
          s'.off = b) ↔ ∃ gs, Pass file base_height start (some stop) true start gs b ∧
            push_all (push_group bucket) acc gs = .ok acc' := by
      have h := @group_loop_ok_iff _ _ file base_height start (some stop) true (push_group bucket)
        (loop_turns file) s hs
        (by rw [loop_turns]; omega) acc acc' b
      rwa [hlimit, htake, hoff] at h
    have hscan : scan_region file start stop base_height bucket =
        group_loop file base_height (some stop) true (push_group bucket) (loop_turns file) s
          (empty_region start, none) >>=
          fun found => pure { found.2.1 with stop := found.1.off, read := found.1.read } := by
      rw [scan_region, hfill]
      change (group_loop _ _ _ _ _ _ s (empty_region s.off, none) >>= _) = _
      rw [hoff]
    constructor
    · intro r hr
      rw [hscan] at hr
      obtain ⟨⟨s', acc⟩, hok, hr⟩ := except_bind_ok_iff.mp hr
      obtain rfl := Except.ok.inj hr
      obtain ⟨gs, hpass, hpush⟩ := (hloop _ acc s'.off).mp ⟨s', hok, rfl⟩
      obtain ⟨hasc, hb, rfl⟩ := (push_all_ok_iff _ _ _ _).mp hpush
      exact ⟨gs, ⟨hpass, hasc, hb⟩, rfl⟩
    · intro gs b h
      obtain ⟨s', hok, rfl⟩ := (hloop (empty_region start, none) (tally bucket (empty_region start, none) gs) b).mpr
        ⟨gs, h.pass, (push_all_ok_iff _ _ _ _).mpr ⟨h.ascending, h.bucket, rfl⟩⟩
      exact ⟨s'.read, by rw [hscan, hok]; rfl⟩
  · have hfirst := align_down_le start
    have hscan : scan_region file start stop base_height bucket = .ok (region_of bucket start [] start 0) := by
      rw [scan_region, Stream.fill, if_neg (by simp [Stream.new]), if_neg (by simp [Stream.new]),
        if_pos (by simp [Stream.new]; omega)]
      change (group_loop _ _ _ _ _ (2 * file.length + 1)
        { Stream.new file.length start file.length with done := true }
        (empty_region (align_down start), none) >>= _) = _
      have hplace : align_down start = start := by omega
      rw [group_loop, if_pos (by simp [Stream.new]; omega), hplace]
      change Except.ok _ = Except.ok _
      rw [Except.ok.injEq]
      change ({ empty_region start with stop := align_down start, read := 0 } : Region) = _
      rw [hplace]
      rfl
    constructor
    · intro r hr
      rw [hscan] at hr
      obtain rfl := Except.ok.inj hr
      exact ⟨[], ⟨Pass.nil_iff.mpr ⟨rfl, hstart, Or.inl ⟨stop, rfl, by omega⟩⟩, trivial, by simp⟩, rfl⟩
    · intro gs b h
      cases gs with
      | nil =>
        obtain ⟨rfl, -, -⟩ := Pass.nil_iff.mp h.pass
        exact ⟨0, hscan⟩
      | cons p gs =>
        obtain ⟨-, hbefore, -⟩ := Pass.cons_iff.mp h.pass
        exact absurd (hbefore stop rfl) (by omega)

end Regions

variable {st : Stitch}

section Absorb

omit [PublicKeys]

def absorb (bucket : ℕ) (st : Stitch) (fallbacks : ℕ) (r : Region) : Except ScanError Stitch :=
  if st.last_txid.any fun a => r.first_txid.any fun b => txid_le b a then invalid "txids out of order"
  else do
    let (sparse, last_bucket) ← r.sparse.foldlM (keep_sparse bucket) (st.out.sparse, st.last_bucket)
    pure ⟨⟨st.out.coins + r.coins, st.out.groups + r.groups, sparse, st.out.fallbacks + fallbacks,
        st.out.bytes_read + r.read⟩, r.stop, if 0 < r.groups then r.last_txid else st.last_txid,
      if 0 < r.groups then r.last_n else st.last_n, last_bucket⟩

structure Merged (bucket : ℕ) (acc whole part : Region × Option ℕ) : Prop where
  coins : whole.1.coins = acc.1.coins + part.1.coins
  groups : whole.1.groups = acc.1.groups + part.1.groups
  last_txid : whole.1.last_txid = if 0 < part.1.groups then part.1.last_txid else acc.1.last_txid
  last_n : whole.1.last_n = if 0 < part.1.groups then part.1.last_n else acc.1.last_n
  last_bucket : whole.2 = part.2.or acc.2
  sparse : part.1.sparse.foldlM (keep_sparse bucket) (acc.1.sparse, acc.2) = .ok (whole.1.sparse, whole.2)

variable {bucket : ℕ}

theorem Merged.add (hb : bucket ≠ 0) {acc whole part : Region × Option ℕ} (h : Merged bucket acc whole part)
    (p : Placed) : Merged bucket acc (add_group bucket whole p) (add_group bucket part p) := by
  have hpos : 0 < part.1.groups + 1 := Nat.succ_pos _
  refine ⟨?_, ?_, ?_, ?_, ?_, ?_⟩
  · change whole.1.coins + p.group.n = acc.1.coins + (part.1.coins + p.group.n)
    rw [h.coins, Nat.add_assoc]
  · change whole.1.groups + 1 = acc.1.groups + (part.1.groups + 1)
    rw [h.groups, Nat.add_assoc]
  · exact (if_pos hpos).symm
  · exact (if_pos hpos).symm
  · rfl
  · have hkeep : keep_sparse bucket (whole.1.sparse, whole.2) (p.group.txid, p.off) =
        .ok (if some ((p.off - HEADER_LEN) / bucket) ≠ whole.2 then
          (whole.1.sparse ++ [(p.group.txid, p.off)], some ((p.off - HEADER_LEN) / bucket))
          else (whole.1.sparse, whole.2)) := by
      rw [keep_sparse, bucket_of, if_neg hb]
      rfl
    rw [add_group, add_group]
    generalize (p.off - HEADER_LEN) / bucket = b at hkeep
    by_cases hpart : some b ≠ part.2
    · rw [if_pos hpart, List.foldlM_append, h.sparse]
      change List.foldlM (keep_sparse bucket) (whole.1.sparse, whole.2) [(p.group.txid, p.off)] = _
      rw [List.foldlM_cons, hkeep]
      by_cases hwhole : some b ≠ whole.2
      · rw [if_pos hwhole, if_pos hwhole]
        rfl
      · rw [if_neg hwhole, if_neg hwhole, not_not.mp hwhole]
        rfl
    · have hsame : whole.2 = some b := by
        rw [h.last_bucket, ← not_not.mp hpart]
        rfl
      rw [if_neg hpart, if_neg (not_not.mpr hsame.symm), h.sparse, hsame]

theorem merged_tally {gs : List Placed} (hb : gs ≠ [] → bucket ≠ 0) (acc : Region × Option ℕ) (start : ℕ) :
    Merged bucket acc (tally bucket acc gs) (tally bucket (empty_region start, none) gs) := by
  induction gs using List.reverseRecOn with
  | nil => exact ⟨rfl, rfl, rfl, rfl, rfl, rfl⟩
  | append_singleton gs p ih =>
    have hb' := hb (by simp)
    rw [tally_append, tally_append]
    exact (ih fun _ => hb').add hb' p

structure Stitched (bucket : ℕ) (st : Stitch) (gs : List Placed) : Prop where
  coins : st.out.coins = (tally bucket (empty_region HEADER_LEN, none) gs).1.coins
  groups : st.out.groups = (tally bucket (empty_region HEADER_LEN, none) gs).1.groups
  sparse : st.out.sparse = (tally bucket (empty_region HEADER_LEN, none) gs).1.sparse
  last_txid : st.last_txid = (tally bucket (empty_region HEADER_LEN, none) gs).1.last_txid
  last_n : st.last_n = (tally bucket (empty_region HEADER_LEN, none) gs).1.last_n
  last_bucket : st.last_bucket = (tally bucket (empty_region HEADER_LEN, none) gs).2

theorem first_txid_tally (bucket start : ℕ) (p : Placed) (gs : List Placed) :
    (tally bucket (empty_region start, none) (p :: gs)).1.first_txid = some p.group.txid := by
  have hkeep (acc : Region × Option ℕ) (t : List UInt8) (h : acc.1.first_txid = some t) (gs : List Placed) :
      (tally bucket acc gs).1.first_txid = some t := by
    induction gs generalizing acc with
    | nil => exact h
    | cons q gs ih => exact ih (add_group bucket acc q) (by rw [add_group, h]; rfl)
  exact hkeep _ _ rfl gs

theorem absorb_eq {gs more : List Placed} (hst : Stitched bucket st gs) (hb : more ≠ [] → bucket ≠ 0)
    (hasc : Ascending none more) (start stop read fallbacks : ℕ) :
    (∀ st', absorb bucket st fallbacks (region_of bucket start more stop read) = .ok st' →
      Ascending (last_of none gs) more ∧ Stitched bucket st' (gs ++ more) ∧ st'.stop = stop) ∧
    (Ascending (last_of none gs) more →
      ∃ st', absorb bucket st fallbacks (region_of bucket start more stop read) = .ok st') := by
  set region := region_of bucket start more stop read
  have hlast : st.last_txid = last_of none gs := by rw [hst.last_txid, tally_last]; rfl
  have horder : (st.last_txid.any fun a => region.first_txid.any fun b => txid_le b a) = false ↔ Ascending (last_of none gs) more := by
    rw [hlast]
    cases more with
    | nil =>
      refine iff_of_true ?_ trivial
      cases last_of none gs <;> rfl
    | cons p more =>
      have hfirst : (region_of bucket start (p :: more) stop read).first_txid = some p.group.txid :=
        first_txid_tally bucket start p more
      rw [hfirst, Ascending]
      exact (and_iff_left hasc.2).symm
  have hmerge := merged_tally hb (tally bucket (empty_region HEADER_LEN, none) gs) start
  rw [← tally_append] at hmerge
  have hsparse := hmerge.sparse
  rw [← hst.sparse, ← hst.last_bucket] at hsparse
  have hok (h : Ascending (last_of none gs) more) :
    absorb bucket st fallbacks region =
      .ok ⟨⟨st.out.coins + region.coins,
        st.out.groups + region.groups,
        (tally bucket (empty_region HEADER_LEN, none) (gs ++ more)).1.sparse, st.out.fallbacks + fallbacks,
        st.out.bytes_read + read⟩, stop,
        if 0 < region.groups then region.last_txid
          else st.last_txid,
        if 0 < region.groups then region.last_n
          else st.last_n, (tally bucket (empty_region HEADER_LEN, none) (gs ++ more)).2⟩ := by
    rw [absorb, horder.mpr h, if_neg Bool.false_ne_true]
    change (((tally bucket (empty_region start, none) more).1.sparse.foldlM (keep_sparse bucket)
      (st.out.sparse, st.last_bucket)) >>= _) = _
    rw [hsparse]
    rfl
  refine ⟨?_, fun h => ⟨_, hok h⟩⟩
  intro st' h
  have hall : Ascending (last_of none gs) more := by
    rw [← horder]
    by_contra hbad
    rw [absorb, if_pos (by simpa using hbad)] at h
    cases h
  rw [hok hall] at h
  obtain rfl := Except.ok.inj h
  refine ⟨hall, ⟨?_, ?_, rfl, ?_, ?_, rfl⟩, rfl⟩
  · rw [hmerge.coins, ← hst.coins]
    rfl
  · rw [hmerge.groups, ← hst.groups]
    rfl
  · rw [hmerge.last_txid, ← hst.last_txid]
    rfl
  · rw [hmerge.last_n, ← hst.last_n]
    rfl

end Absorb

section Stops

variable {file : List UInt8} {base_height bucket : ℕ}

inductive Regions (file : List UInt8) (base_height : ℕ) : ℕ → List ℕ → List Placed → ℕ → Prop
  | nil (a : ℕ) : Regions file base_height a [] [] a
  | cons {a b c d : ℕ} {stops : List ℕ} {gs more : List Placed}
    (h : Pass file base_height a (some (max b a)) true a gs c) (hmore : Regions file base_height c stops more d) :
    Regions file base_height a (b :: stops) (gs ++ more) d

theorem stitch_region_eq (base_height bucket : ℕ) (st : Stitch) {a b : ℕ} (hab : a ≤ b) (ha : a ≤ file.length)
    (hb : b ≤ file.length) :
    ∃ fallbacks, stitch_region file base_height bucket st (scan_region file a b base_height bucket, b) =
      scan_region file st.stop (max b st.stop) base_height bucket >>= absorb bucket st fallbacks := by
  rw [stitch_region]
  have hagain : ∃ fallbacks, (do
      let found ← (do
        let r ← scan_region file st.stop (max b st.stop) base_height bucket
        pure (r, 1) : Except ScanError (Region × ℕ))
      absorb bucket st found.2 found.1) =
        scan_region file st.stop (max b st.stop) base_height bucket >>= absorb bucket st fallbacks := by
    refine ⟨1, ?_⟩
    cases scan_region file st.stop (max b st.stop) base_height bucket <;> rfl
  cases hr : scan_region file a b base_height bucket with
  | error e => exact hagain
  | ok r =>
    obtain ⟨gs, -, hregion⟩ := (scan_region_eq base_height bucket ha hb).1 r hr
    have hfirst : r.first = a := by
      have hkeep (acc : Region × Option ℕ) (gs : List Placed) : (tally bucket acc gs).1.first = acc.1.first := by
        induction gs generalizing acc with
        | nil => rfl
        | cons p gs ih => exact ih (add_group bucket acc p)
      rw [hregion]
      exact hkeep _ gs
    dsimp only
    by_cases hsame : r.first = st.stop
    · refine ⟨0, ?_⟩
      rw [if_pos hsame, ← hsame, hfirst, Nat.max_eq_left hab, hr]
      rfl
    · rw [if_neg hsame]
      exact hagain

omit [PublicKeys] in
theorem stitched_nil (bucket : ℕ) : Stitched bucket ⟨⟨0, 0, [], 0, 0⟩, HEADER_LEN, none, 0, none⟩ [] :=
  ⟨rfl, rfl, rfl, rfl, rfl, rfl⟩

omit [PublicKeys] in
theorem ascending_none {last : Option (List UInt8)} {gs : List Placed} (h : Ascending last gs) :
    Ascending none gs := by
  cases gs with
  | nil => trivial
  | cons p gs => exact ⟨rfl, h.2⟩

theorem stitch_region_ok_iff (base_height : ℕ) {gs : List Placed} (hst : Stitched bucket st gs)
    (hstop : st.stop ≤ file.length) {a b : ℕ} (hab : a ≤ b) (hb : b ≤ file.length) :
    (∀ st', stitch_region file base_height bucket st (scan_region file a b base_height bucket, b) = .ok st' →
      ∃ more, Pass file base_height st.stop (some (max b st.stop)) true st.stop more st'.stop ∧
        Ascending (last_of none gs) more ∧ (more ≠ [] → bucket ≠ 0) ∧ Stitched bucket st' (gs ++ more)) ∧
    ∀ more c, Pass file base_height st.stop (some (max b st.stop)) true st.stop more c →
      Ascending (last_of none gs) more → (more ≠ [] → bucket ≠ 0) →
      ∃ st', stitch_region file base_height bucket st (scan_region file a b base_height bucket, b) = .ok st' ∧
        st'.stop = c ∧ Stitched bucket st' (gs ++ more) := by
  obtain ⟨fallbacks, heq⟩ := stitch_region_eq base_height bucket st hab (hab.trans hb) hb
  rw [heq]
  obtain ⟨hsound, hcomplete⟩ := scan_region_eq base_height bucket hstop
    (show max b st.stop ≤ file.length by omega)
  constructor
  · intro st' h
    obtain ⟨r, hr, habsorb⟩ := except_bind_ok_iff.mp h
    obtain ⟨more, hscanned, hregion⟩ := hsound r hr
    rw [hregion] at habsorb
    obtain ⟨hasc, hstitched, hend⟩ := (absorb_eq hst hscanned.bucket hscanned.ascending _ _ _ _).1 st' habsorb
    exact ⟨more, hend ▸ hscanned.pass, hasc, hscanned.bucket, hstitched⟩
  · intro more c hpass hasc hbucket
    have hnone := ascending_none hasc
    obtain ⟨read, hr⟩ := hcomplete more c ⟨hpass, hnone, hbucket⟩
    obtain ⟨hsame, hok⟩ := absorb_eq hst hbucket hnone st.stop c read fallbacks
    obtain ⟨st', hst'⟩ := hok hasc
    obtain ⟨-, hstitched, hend⟩ := hsame st' hst'
    exact ⟨st', by rw [hr]; exact hst', hend, hstitched⟩

def scanned_pairs (file : List UInt8) (base_height bucket : ℕ) (pairs : List (ℕ × ℕ)) :
    List (Except ScanError Region × ℕ) :=
  pairs.map fun p => (scan_region file p.1 p.2 base_height bucket, p.2)

theorem stitch_fold_ok_iff (base_height : ℕ) {pairs : List (ℕ × ℕ)}
    (hpairs : ∀ p ∈ pairs, p.1 ≤ p.2 ∧ p.2 ≤ file.length) {gs : List Placed} (hst : Stitched bucket st gs)
    (hstop : st.stop ≤ file.length) :
    (∀ st', (scanned_pairs file base_height bucket pairs).foldlM (stitch_region file base_height bucket) st =
      .ok st' →
      ∃ more, Regions file base_height st.stop (pairs.map (·.2)) more st'.stop ∧ Ascending (last_of none gs) more ∧
        (more ≠ [] → bucket ≠ 0) ∧ Stitched bucket st' (gs ++ more)) ∧
    ∀ more d, Regions file base_height st.stop (pairs.map (·.2)) more d → Ascending (last_of none gs) more →
      (more ≠ [] → bucket ≠ 0) →
      ∃ st', (scanned_pairs file base_height bucket pairs).foldlM (stitch_region file base_height bucket) st =
        .ok st' ∧
        st'.stop = d ∧ Stitched bucket st' (gs ++ more) := by
  induction pairs generalizing st gs with
  | nil =>
    constructor
    · intro st' h
      cases h
      exact ⟨[], .nil _, trivial, by simp, by rwa [List.append_nil]⟩
    · intro more d h _ _
      cases h
      exact ⟨st, rfl, rfl, by rwa [List.append_nil]⟩
  | cons p pairs ih =>
    obtain ⟨⟨hab, hb⟩, hrest⟩ := List.forall_mem_cons.mp hpairs
    obtain ⟨hsound, hcomplete⟩ := stitch_region_ok_iff base_height hst hstop hab hb
    rw [scanned_pairs, List.map_cons, List.foldlM_cons]
    constructor
    · intro st' h
      obtain ⟨next, hnext, hfold⟩ := except_bind_ok_iff.mp h
      obtain ⟨front, hpass, hasc, hbucket, hst'⟩ := hsound next hnext
      obtain ⟨more, hregions, hasc', hbucket', hend⟩ := (ih hrest hst' hpass.walk.le.2).1 st' hfold
      refine ⟨front ++ more, .cons hpass hregions, ?_, ?_, by rwa [← List.append_assoc]⟩
      · rw [ascending_append]
        rw [last_of, List.foldl_append] at hasc'
        exact ⟨hasc, hasc'⟩
      · intro hne
        by_cases hfront : front = []
        · exact hbucket' (by rwa [hfront, List.nil_append] at hne)
        · exact hbucket hfront
    · intro more d h hasc hbucket
      cases h with
      | cons hpass hregions =>
        rename_i c front back
        obtain ⟨hasc, hasc'⟩ := (ascending_append _ _ _).mp hasc
        obtain ⟨next, hnext, hc, hst'⟩ := hcomplete front c hpass hasc fun hne => hbucket (by simp [hne])
        subst hc
        obtain ⟨st', hfold, hend, hlast⟩ := (ih hrest hst' hpass.walk.le.2).2 back d hregions
          (by rw [last_of, List.foldl_append]; exact hasc') fun hne => hbucket (by simp [hne])
        exact ⟨st', except_bind_ok_iff.mpr ⟨next, hnext, hfold⟩, hend, by rwa [← List.append_assoc]⟩

variable {p : Placed}

namespace Regions

variable {a d : ℕ} {stops : List ℕ} {gs : List Placed}

theorem walk (h : Regions file base_height a stops gs d) (ha : a ≤ file.length) : Walk file base_height a gs d := by
  induction h with
  | nil a => exact .nil ha
  | cons hpass _ ih => exact hpass.walk.append (ih hpass.walk.le.2)

theorem flows (h : Regions file base_height a stops gs d) (hp : p ∈ gs) : ∃ r ≤ p.off, ¬Blocked r p := by
  induction h with
  | nil a => cases hp
  | cons hpass _ ih =>
    rcases List.mem_append.mp hp with hp | hp
    · exact ⟨_, (hpass.walk.mem hp).1, hpass.flows p hp⟩
    · exact ih hp

theorem ends (h : Regions file base_height a (stops ++ [file.length]) gs d) : d = file.length := by
  induction stops generalizing a gs with
  | nil =>
    cases h with
    | cons hpass hmore =>
      cases hmore with
      | nil =>
        have hle := hpass.walk.le.2
        rcases hpass.ended with ⟨t, ht, hge⟩ | ⟨-, hend⟩
        · cases ht
          omega
        · exact hend
  | cons b stops ih =>
    cases h with
    | cons hpass hmore => exact ih hmore

end Regions

omit [PublicKeys] in
theorem blocked_self {b : ℕ} (hle : b ≤ p.off) (h : Blocked p.off p) : Blocked b p := by
  obtain ⟨k, hgt, hlt⟩ := h
  have hpage (x : ℕ) : ∃ m, align_down x = 4096 * m ∧ 4096 * m ≤ x ∧ x < 4096 * m + 4096 := by
    refine ⟨x / 4096, ?_, ?_, ?_⟩
    · rw [align_down, ALIGN, Nat.mul_comm]
    · omega
    · omega
  obtain ⟨m, hm, hmle, hmlt⟩ := hpage p.off
  obtain ⟨n, hn, hnle, -⟩ := hpage b
  rw [max_group_eq, read_block_eq, hm] at hgt
  rw [read_block_eq, hm] at hlt
  obtain ⟨j, hj⟩ : ∃ j, j = (p.off + 16777216 - 4096 * n) / 8388608 := ⟨_, rfl⟩
  refine ⟨j + 1, ?_, ?_⟩
  · rw [max_group_eq, read_block_eq, hn]
    omega
  · rw [read_block_eq, hn]
    omega

theorem pass_exists (r : ℕ) {a t : ℕ} {gs : List Placed} (h : Walk file base_height a gs file.length)
    (hflow : ∀ p ∈ gs, p.off < t → ¬Blocked r p) :
    ∃ front back c, gs = front ++ back ∧ Pass file base_height r (some t) true a front c ∧
      Walk file base_height c back file.length ∧ ∀ q ∈ back, t ≤ q.off := by
  induction gs generalizing a with
  | nil =>
    cases h with
    | nil hle => exact ⟨[], [], _, rfl, Pass.nil_iff.mpr ⟨rfl, hle, Or.inr ⟨rfl, rfl⟩⟩, .nil hle, by simp⟩
  | cons p gs ih =>
    obtain ⟨hoff, hgroup, hwalk⟩ := h.head
    by_cases hlt : a < t
    · obtain ⟨front, back, c, rfl, hpass, hback, hafter⟩ := ih hwalk fun q hq => hflow q (List.mem_cons_of_mem _ hq)
      refine ⟨p :: front, back, c, rfl, Pass.cons_iff.mpr ⟨hoff, ?_, ?_, hgroup, hpass⟩, hback, hafter⟩
      · intro t' ht
        cases ht
        exact hlt
      · exact hflow p List.mem_cons_self (by omega)
    · refine ⟨[], p :: gs, a, rfl, Pass.nil_iff.mpr ⟨rfl, h.le.1, Or.inl ⟨t, rfl, by omega⟩⟩, h, ?_⟩
      intro q hq
      exact (show t ≤ a by omega).trans (h.mem hq).1

theorem first_off {a : ℕ} {gs : List Placed} (h : Walk file base_height a gs file.length) (hp : p ∈ gs) :
    ∃ q ∈ gs, q.off = a := by
  cases gs with
  | nil => cases hp
  | cons q gs => exact ⟨q, List.mem_cons_self, h.head.1⟩

theorem regions_exist {a : ℕ} {stops : List ℕ} {gs : List Placed} (h : Walk file base_height a gs file.length)
    (hsorted : stops.Pairwise (· < ·)) (hstops : ∀ t ∈ stops, t < file.length)
    (hflow : ∀ p ∈ gs, ∀ q ∈ gs, q.off ≤ p.off → (∀ t ∈ stops, ¬(q.off < t ∧ t ≤ p.off)) → ¬Blocked q.off p) :
    Regions file base_height a (stops ++ [file.length]) gs file.length := by
  have hle := h.le.1
  induction stops generalizing a gs with
  | nil =>
    obtain ⟨front, back, c, rfl, hpass, hback, hafter⟩ := pass_exists (t := file.length) a h (by
      intro p hp _
      obtain ⟨q, hq, rfl⟩ := first_off h hp
      exact hflow p hp q hq (h.mem hp).1 (by simp))
    have hnil : back = [] := by
      cases back with
      | nil => rfl
      | cons q back =>
        have hq := hback.mem List.mem_cons_self
        have hge := hafter q List.mem_cons_self
        omega
    subst hnil
    cases hback
    exact .cons (by rwa [Nat.max_eq_left hle]) (.nil _)
  | cons t stops ih =>
    obtain ⟨hfirst, hsorted⟩ := List.pairwise_cons.mp hsorted
    obtain ⟨hlt, hstops⟩ := List.forall_mem_cons.mp hstops
    obtain ⟨front, back, c, rfl, hpass, hback, hafter⟩ := pass_exists (t := max t a) a h (by
      intro p hp hoff
      have hge := (h.mem hp).1
      obtain ⟨q, hq, rfl⟩ := first_off h hp
      refine hflow p hp q hq hge ?_
      intro t' ht'
      rcases List.mem_cons.mp ht' with rfl | ht'
      · omega
      · have := hfirst t' ht'
        omega)
    refine .cons hpass (ih hback hsorted hstops ?_ hback.le.1)
    intro p hp q hq hqp hnone
    refine hflow p (List.mem_append_right _ hp) q (List.mem_append_right _ hq) hqp ?_
    intro t' ht'
    rcases List.mem_cons.mp ht' with rfl | ht'
    · have := hafter q hq
      omega
    · exact hnone t' ht'

end Stops

end AvilaNode.Snapshot
