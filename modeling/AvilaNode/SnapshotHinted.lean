import AvilaNode.SnapshotHashed

/-! Hints that check in parallel, against one pass: what the intervals prove together. -/

namespace AvilaNode.Snapshot

open ByteStrings ByteReader

variable [ShaKernel] [PublicKeys] {file : List UInt8} {base_height bucket : ℕ} {hdr : Header}

section Intervals

variable {gs : List Placed} {a : Hint}

omit [ShaKernel] in
theorem Walk.take_iff {limit a b : ℕ} (hlimit : limit ≤ file.length) (hb : b ≤ limit) :
    Walk (file.take limit) base_height a gs b ↔ Walk file base_height a gs b := by
  have hlen : (file.take limit).length = limit := by rw [List.length_take, Nat.min_eq_left hlimit]
  have hfront (off : ℕ) : (file.take limit).drop off <+: file.drop off := by
    rw [List.drop_take]
    exact List.take_prefix _ _
  constructor
  · intro h
    induction h with
    | nil hle => exact .nil ((hle.trans hlen.le).trans hlimit)
    | cons hoff hgroup _ ih => exact .cons hoff (window_group_whole (hfront _) hgroup) (ih hb)
  · intro h
    induction h with
    | nil _ => exact .nil (hb.trans hlen.ge)
    | @cons off p gs stop hoff hgroup hw ih =>
      refine .cons hoff (window_group_held (hfront _) hgroup ?_) (ih hb)
      rw [List.length_drop, hlen]
      have := hw.le.1
      omega

omit [ShaKernel] in
theorem interval_pass_iff {a b : ℕ} {limit : ℕ} (hlimit : limit ≤ file.length) (hb : b ≤ limit) :
    Pass (file.take limit) base_height a (some b) false a gs b ↔
      Walk file base_height a gs b ∧ ∀ p ∈ gs, ¬Blocked a p := by
  rw [← Walk.take_iff hlimit hb]
  constructor
  · exact fun h => ⟨h.walk, h.flows⟩
  · rintro ⟨hwalk, hflows⟩
    refine ⟨hwalk, ?_, Or.inl ⟨b, rfl, le_rfl⟩, hflows⟩
    intro p hp t ht
    cases ht
    have := hwalk.mem hp
    omega

structure Replayed (bucket : ℕ) (a : Hint) (s : Replaying) (gs : List Placed) : Prop where
  groups : s.iv.groups = (tally bucket (empty_region a.off, none) gs).1.groups
  sparse : s.iv.sparse = (tally bucket (empty_region a.off, none) gs).1.sparse
  coins : s.coins = (tally bucket (empty_region a.off, none) gs).1.coins
  last_n : s.iv.last_n = (tally bucket (empty_region a.off, none) gs).1.last_n
  prev_bucket : s.prev_bucket = (tally bucket (empty_region a.off, none) gs).2
  first_txid : (tally bucket (empty_region a.off, none) gs).1.first_txid =
    if s.iv.groups = 0 then none else some s.iv.first_txid
  last_txid : (tally bucket (empty_region a.off, none) gs).1.last_txid =
    if s.iv.groups = 0 then none else some s.iv.last_txid
  len : s.sha.buf_len < 64
  content : s.sha.content.update s.ser = a.state.content.update (hashed gs)

omit [PublicKeys] in
theorem replayed_start (bucket : ℕ) (hlen : a.state.buf_len < 64) :
    Replayed bucket a ⟨⟨List.replicate 32 0, List.replicate 32 0, 0, 0, [], 0⟩, none, a.state, [], 0⟩ [] :=
  ⟨rfl, rfl, rfl, rfl, rfl, rfl, rfl, hlen, rfl⟩

omit [PublicKeys] in
theorem Replayed.push {s : Replaying} (h : Replayed bucket a s gs) (p : Placed) :
    (∀ s', interval_push bucket s p.off p.group = .ok s' →
      ((tally bucket (empty_region a.off, none) gs).1.last_txid.any fun t => txid_le p.group.txid t) = false ∧
        bucket ≠ 0 ∧
        Replayed bucket a s' (gs ++ [p])) ∧
    (((tally bucket (empty_region a.off, none) gs).1.last_txid.any fun t => txid_le p.group.txid t) = false →
      bucket ≠ 0 →
      ∃ s', interval_push bucket s p.off p.group = .ok s') := by
  obtain ⟨T, hT⟩ : ∃ T, T = tally bucket (empty_region a.off, none) gs := ⟨_, rfl⟩
  have hnext : tally bucket (empty_region a.off, none) (gs ++ [p]) = add_group bucket T p := by
    rw [tally_append, ← hT]
    rfl
  rw [← hT]
  have horder : (s.iv.groups ≠ 0 ∧ txid_le p.group.txid s.iv.last_txid) ↔
      (T.1.last_txid.any fun t => txid_le p.group.txid t) = true := by
    rw [hT, h.last_txid]
    by_cases hzero : s.iv.groups = 0
    · rw [if_pos hzero]
      simp [hzero]
    · rw [if_neg hzero]
      simp [hzero]
  have hiv (sha : ShaState) (ser : List UInt8) (hlen : sha.buf_len < 64)
      (hcontent : sha.content.update ser = s.sha.content.update (s.ser ++ p.group.ser)) :
      Replayed bucket a ⟨{ s.iv with
        first_txid := if s.iv.groups = 0 then p.group.txid else s.iv.first_txid, last_txid := p.group.txid,
        last_n := p.group.n, groups := s.iv.groups + 1,
        sparse := if some ((p.off - HEADER_LEN) / bucket) ≠ s.prev_bucket then s.iv.sparse ++ [(p.group.txid, p.off)]
          else s.iv.sparse }, some ((p.off - HEADER_LEN) / bucket), sha, ser, s.coins + p.group.n⟩ (gs ++ [p]) := by
    refine ⟨?_, ?_, ?_, ?_, ?_, ?_, ?_, hlen, ?_⟩
    · rw [hnext]
      exact congrArg (· + 1) (h.groups.trans (by rw [hT]))
    · rw [hnext, add_group]
      rw [h.sparse, h.prev_bucket, ← hT]
    · rw [hnext]
      exact congrArg (· + p.group.n) (h.coins.trans (by rw [hT]))
    · rw [hnext]
      rfl
    · rw [hnext]
      rfl
    · rw [hnext, if_neg (Nat.succ_ne_zero _), add_group]
      rw [hT, h.first_txid]
      split_ifs <;> rfl
    · rw [hnext, if_neg (Nat.succ_ne_zero _)]
      rfl
    · dsimp only
      rw [hcontent, ← ShaState.Content.update_append, h.content, ShaState.Content.update_append, hashed_append]
      congr 2
      rw [hashed, List.flatMap_singleton]
  rw [interval_push]
  by_cases hlate : s.iv.groups ≠ 0 ∧ txid_le p.group.txid s.iv.last_txid
  · rw [if_pos hlate, horder.mp hlate]
    constructor
    · intro s' hs
      cases hs
    · intro hs
      cases hs
  · have hfresh : (T.1.last_txid.any fun t => txid_le p.group.txid t) = false := by
      rw [← Bool.not_eq_true, ← horder]
      exact hlate
    rw [if_neg hlate, hfresh, bucket_of]
    by_cases hb : bucket = 0
    · rw [if_pos hb]
      refine ⟨fun s' hs => ?_, fun _ hs => absurd hb hs⟩
      cases hs
    · rw [if_neg hb]
      dsimp only [bind, Except.bind]
      by_cases hmany : SER_CHUNK ≤ (s.ser ++ p.group.ser).length
      · obtain ⟨sha, hupdate, hlen, hcontent⟩ := ShaState.update_content h.len.le (s.ser ++ p.group.ser)
        rw [if_pos hmany, hupdate]
        refine ⟨fun s' hs => ?_, fun _ _ => ⟨_, rfl⟩⟩
        obtain rfl := Except.ok.inj hs
        refine ⟨rfl, hb, hiv sha [] hlen ?_⟩
        rw [hcontent, ShaState.Content.update_append, List.append_nil]
      · rw [if_neg hmany]
        refine ⟨fun s' hs => ?_, fun _ _ => ⟨_, rfl⟩⟩
        obtain rfl := Except.ok.inj hs
        exact ⟨rfl, hb, hiv s.sha (s.ser ++ p.group.ser) h.len rfl⟩

omit [PublicKeys] in
theorem replayed_all {s : Replaying} {front gs : List Placed} (h : Replayed bucket a s front) :
    (∀ s', push_all (interval_push bucket) s gs = .ok s' →
      Ascending (tally bucket (empty_region a.off, none) front).1.last_txid gs ∧ (gs ≠ [] → bucket ≠ 0) ∧
        Replayed bucket a s' (front ++ gs)) ∧
    (Ascending (tally bucket (empty_region a.off, none) front).1.last_txid gs → (gs ≠ [] → bucket ≠ 0) →
      ∃ s', push_all (interval_push bucket) s gs = .ok s') := by
  induction gs generalizing s front with
  | nil =>
    refine ⟨fun s' hs => ?_, fun _ _ => ⟨s, rfl⟩⟩
    cases hs
    exact ⟨trivial, by simp, by rwa [List.append_nil]⟩
  | cons p gs ih =>
    have hlast : (tally bucket (empty_region a.off, none) (front ++ [p])).1.last_txid = some p.group.txid := by
      rw [tally_append]
      rfl
    obtain ⟨hsound, hcomplete⟩ := h.push p
    constructor
    · intro s' hs
      obtain ⟨next, hnext, hs⟩ := (push_all_cons _ _ _ _).mp hs
      obtain ⟨hany, hb, hreplayed⟩ := hsound next hnext
      obtain ⟨hasc, -, hlast'⟩ := (ih hreplayed).1 s' hs
      rw [hlast] at hasc
      exact ⟨⟨hany, hasc⟩, fun _ => hb, by rwa [List.append_assoc] at hlast'⟩
    · rintro ⟨hany, hasc⟩ hb
      have hb' := hb (List.cons_ne_nil p gs)
      obtain ⟨next, hnext⟩ := hcomplete hany hb'
      obtain ⟨-, -, hreplayed⟩ := hsound next hnext
      obtain ⟨s', hs⟩ := (ih hreplayed).2 (by rwa [hlast]) fun _ => hb'
      exact ⟨s', (push_all_cons _ _ _ _).mpr ⟨next, hnext, hs⟩⟩

structure Interval.Of (bucket start : ℕ) (iv : Interval) (gs : List Placed) : Prop where
  groups : iv.groups = (tally bucket (empty_region start, none) gs).1.groups
  sparse : iv.sparse = (tally bucket (empty_region start, none) gs).1.sparse
  last_n : iv.last_n = (tally bucket (empty_region start, none) gs).1.last_n
  first_txid : (tally bucket (empty_region start, none) gs).1.first_txid = some iv.first_txid
  last_txid : (tally bucket (empty_region start, none) gs).1.last_txid = some iv.last_txid

/-- A replayed interval: its groups lie from one hint to the other, and make the one state of the other. -/
structure Replays (file : List UInt8) (base_height bucket : ℕ) (a b : Hint) (gs : List Placed) : Prop where
  walk : Walk file base_height a.off gs b.off
  flows : ∀ p ∈ gs, ¬Blocked a.off p
  ascending : Ascending none gs
  has_bucket : bucket ≠ 0
  coins : b.coins = a.coins + coin_count gs
  content : b.state.content = a.state.content.update (hashed gs)
  len : b.state.buf_len < 64

variable {b : Hint}

omit [ShaKernel] [PublicKeys] in
theorem interval_bounds (hoff : a.off < b.off) (hb : b.off ≤ file.length) :
    a.off ≤ align_up b.off ∧ (file.length ≤ align_up b.off ∨ ALIGN ∣ align_up b.off) ∧
      align_down a.off < min (align_up b.off) file.length ∧ b.off ≤ min (align_up b.off) file.length := by
  have hdown := (align_down_le a.off).1
  have hup : b.off ≤ align_up b.off := by
    rw [align_up, ALIGN]
    omega
  refine ⟨by omega, Or.inr ⟨_, Nat.mul_comm _ _⟩, by omega, by omega⟩

theorem verify_interval_sound (ha : HEADER_LEN ≤ a.off) (hoff : a.off < b.off) (hb : b.off ≤ file.length)
    (hlen : a.state.buf_len < 64) {iv : Interval} (h : verify_interval file a b base_height bucket = .ok iv) :
    ∃ gs, Replays file base_height bucket a b gs ∧ iv.Of bucket a.off gs := by
  obtain ⟨hlimit, haligned, hfirst, hfits⟩ := interval_bounds hoff hb
  obtain ⟨⟨s, acc⟩, hloop, h⟩ := except_bind_ok_iff.mp h
  obtain ⟨sha, hsha, h⟩ := except_bind_ok_iff.mp h
  split_ifs at h with hplace hcoins hstate
  · cases h
  · cases h
  · cases h
  obtain rfl := Except.ok.inj h
  rw [not_not] at hplace hcoins
  obtain ⟨gs, hpass, hpush⟩ :=
    (new_loop_ok_iff (some b.off) false ha (hoff.le.trans hb) hlimit haligned hfirst (by simpa using hoff) _ _ _).mp
    ⟨s, hloop, rfl⟩
  rw [hplace, interval_pass_iff (Nat.min_le_right _ _) hfits] at hpass
  obtain ⟨hwalk, hflows⟩ := hpass
  obtain ⟨hasc, hbucket, hreplayed⟩ := (replayed_all (replayed_start bucket hlen)).1 acc hpush
  rw [List.nil_append] at hreplayed
  have hne : gs ≠ [] := by
    rintro rfl
    exact absurd hwalk.nil_eq hoff.ne'
  have hgroups : acc.iv.groups ≠ 0 := by
    rw [hreplayed.groups, tally_groups]
    have := List.length_pos_iff.mpr hne
    omega
  obtain ⟨sha', hupdate, hshalen, hcontent⟩ := ShaState.update_content hreplayed.len.le acc.ser
  rw [hupdate] at hsha
  obtain rfl := Except.ok.inj hsha
  obtain ⟨hsame, hsamelen⟩ := ShaState.eq_iff.mp (by simpa using hstate : sha'.eq b.state = true)
  refine ⟨gs, ⟨hwalk, hflows, hasc, hbucket hne, ?_, ?_, hsamelen ▸ hshalen⟩, hreplayed.groups, hreplayed.sparse,
    hreplayed.last_n, ?_, ?_⟩
  · rw [hreplayed.coins, tally_coins, checked_add] at hcoins
    split_ifs at hcoins
    have hsum := Option.some.inj hcoins
    have hzero : (empty_region a.off, (none : Option ℕ)).1.coins = 0 := rfl
    rw [hzero, Nat.zero_add] at hsum
    exact hsum.symm
  · rw [← hsame, hcontent, hreplayed.content]
  · rw [hreplayed.first_txid, if_neg hgroups]
  · rw [hreplayed.last_txid, if_neg hgroups]

theorem verify_interval_complete (ha : HEADER_LEN ≤ a.off) (hoff : a.off < b.off) (hb : b.off ≤ file.length)
    (hlen : a.state.buf_len < 64) (hcoins : b.coins < 2 ^ 64) (h : Replays file base_height bucket a b gs) :
    ∃ iv, verify_interval file a b base_height bucket = .ok iv := by
  obtain ⟨hlimit, haligned, hfirst, hfits⟩ := interval_bounds hoff hb
  have hreplay := @replayed_all _ bucket _ _ _ gs (replayed_start bucket hlen)
  obtain ⟨acc, hpush⟩ := hreplay.2 h.ascending fun _ => h.has_bucket
  obtain ⟨-, -, hreplayed⟩ := hreplay.1 acc hpush
  rw [List.nil_append] at hreplayed
  obtain ⟨s, hloop, hplace⟩ := (new_loop_ok_iff (some b.off) false ha (hoff.le.trans hb) hlimit haligned
    hfirst (by simpa using hoff) _ _ b.off).mpr
    ⟨gs, (interval_pass_iff (Nat.min_le_right _ _) hfits).mpr ⟨h.walk, h.flows⟩, hpush⟩
  obtain ⟨sha, hupdate, hshalen, hcontent⟩ := ShaState.update_content hreplayed.len.le acc.ser
  have hsum : checked_add a.coins acc.coins = some b.coins := by
    have hzero : (empty_region a.off, (none : Option ℕ)).1.coins = 0 := rfl
    rw [hreplayed.coins, tally_coins, hzero, Nat.zero_add, checked_add, ← h.coins, if_pos hcoins]
  have hsame : sha.content = b.state.content := by rw [hcontent, hreplayed.content, h.content]
  have hstate : sha.eq b.state = true := by
    refine ShaState.eq_iff.mpr ⟨hsame, ?_⟩
    rw [← ShaState.length_held hshalen.le, hsame, ShaState.length_held h.len.le]
  refine ⟨{ acc.iv with read := s.read }, ?_⟩
  refine except_bind_ok_iff.mpr ⟨(s, acc), hloop, except_bind_ok_iff.mpr ⟨sha, by rw [hupdate]; rfl, ?_⟩⟩
  rw [if_neg (not_not.mpr hplace), if_neg (not_not.mpr hsum), hstate]
  rfl

end Intervals

variable {runs : List (List Placed)}

section Chain

structure Gathered.Of (bucket : ℕ) (acc : Gathered) (gs : List Placed) : Prop where
  groups : acc.groups = (tally bucket (empty_region HEADER_LEN, none) gs).1.groups
  sparse : acc.sparse = (tally bucket (empty_region HEADER_LEN, none) gs).1.sparse
  prev : acc.prev = last_of none gs
  last_n : acc.last_n = (tally bucket (empty_region HEADER_LEN, none) gs).1.last_n
  last_bucket : acc.last_bucket = (tally bucket (empty_region HEADER_LEN, none) gs).2

omit [ShaKernel] [PublicKeys] in
theorem gathered_start (bucket : ℕ) : Gathered.Of bucket ⟨0, [], 0, none, 0, none⟩ [] := ⟨rfl, rfl, rfl, rfl, rfl⟩

variable {acc : Gathered} {a : Hint} {hs : List Hint}

omit [ShaKernel] [PublicKeys] in
theorem Gathered.Of.add {gs more : List Placed} (h : acc.Of bucket gs) (hb : bucket ≠ 0) (hne : more ≠ [])
    (hasc : Ascending none more) {iv : Interval} {start : ℕ} (hiv : iv.Of bucket start more) :
    (∀ acc', gather_interval bucket acc (.ok iv) = .ok acc' → Ascending (last_of none gs) more ∧
      acc'.Of bucket (gs ++ more)) ∧
    (Ascending (last_of none gs) more → ∃ acc', gather_interval bucket acc (.ok iv) = .ok acc') := by
  obtain ⟨p, rest, rfl⟩ := List.exists_cons_of_ne_nil hne
  have hfirst : iv.first_txid = p.group.txid := by
    have hsame := hiv.first_txid
    rw [first_txid_tally] at hsame
    exact (Option.some.inj hsame).symm
  have horder : (acc.prev.any fun t => txid_le iv.first_txid t) = false ↔
    Ascending (last_of none gs) (p :: rest) := by
    rw [h.prev, hfirst, Ascending]
    exact (and_iff_left hasc.2).symm
  have hmerge := @merged_tally bucket (p :: rest) (fun _ => hb)
    (tally bucket (empty_region HEADER_LEN, none) gs) start
  rw [← tally_append] at hmerge
  have hpos : 0 < (tally bucket (empty_region start, none) (p :: rest)).1.groups := by
    rw [tally_groups, List.length_cons]
    omega
  have hok (horder' : (acc.prev.any fun t => txid_le iv.first_txid t) = false) : gather_interval bucket acc (.ok iv) =
      .ok ⟨acc.groups + iv.groups, (tally bucket (empty_region HEADER_LEN, none) (gs ++ p :: rest)).1.sparse,
        acc.bytes_read + iv.read, some iv.last_txid, iv.last_n,
        (tally bucket (empty_region HEADER_LEN, none) (gs ++ p :: rest)).2⟩ := by
    have hsparse := hmerge.sparse
    rw [← hiv.sparse, ← h.sparse, ← h.last_bucket] at hsparse
    rw [gather_interval]
    change (if (acc.prev.any fun t => txid_le iv.first_txid t) = true then _ else
      iv.sparse.foldlM (keep_sparse bucket) (acc.sparse, acc.last_bucket) >>= _) = _
    rw [horder', if_neg Bool.false_ne_true, hsparse]
    rfl
  refine ⟨fun acc' hacc => ?_, fun hall => ⟨_, hok (horder.mpr hall)⟩⟩
  have hfresh : (acc.prev.any fun t => txid_le iv.first_txid t) = false := by
    by_contra hlate
    rw [gather_interval] at hacc
    change (if (acc.prev.any fun t => txid_le iv.first_txid t) = true then _ else _) = _ at hacc
    rw [if_pos (by simpa using hlate)] at hacc
    cases hacc
  rw [hok hfresh] at hacc
  obtain rfl := Except.ok.inj hacc
  refine ⟨horder.mp hfresh, ?_, rfl, ?_, ?_, rfl⟩
  · rw [hmerge.groups, ← h.groups, ← hiv.groups]
  · have hlast := hiv.last_txid
    rw [tally_last] at hlast
    rw [last_of, List.foldl_append]
    exact hlast.symm
  · rw [hmerge.last_n, if_pos hpos, hiv.last_n]

def Unblocked (run : List Placed) : Prop := ∀ q ∈ run.head?, ∀ p ∈ run, ¬Blocked q.off p

omit [ShaKernel] in
theorem unblocked_iff {run : List Placed} {a b : ℕ} (hw : Walk file base_height a run b) :
    Unblocked run ↔ ∀ p ∈ run, ¬Blocked a p := by
  cases run with
  | nil => simp [Unblocked]
  | cons q run =>
    rw [Unblocked, ← hw.head.1]
    simp

def replay_chain (file : List UInt8) (base_height bucket : ℕ) (a : Hint) (hs : List Hint) :
    List (Except ScanError Interval) :=
  List.zipWith (fun a b => verify_interval file a b base_height bucket) (a :: hs) hs

theorem chain_sound (ha : HEADER_LEN ≤ a.off) (hlen : a.state.buf_len < 64)
    (hsorted : (a :: hs).Pairwise (·.off < ·.off)) (hb : ∀ h ∈ hs, h.off ≤ file.length) {acc' : Gathered}
    {gs : List Placed} (hacc : acc.Of bucket gs)
    (h : (replay_chain file base_height bucket a hs).foldlM (gather_interval bucket) acc = .ok acc') :
    ∃ runs, Honest file base_height a runs hs ∧ (∀ run ∈ runs, run ≠ [] ∧ Unblocked run) ∧
      Ascending (last_of none gs) runs.flatten ∧ (hs ≠ [] → bucket ≠ 0) ∧ acc'.Of bucket (gs ++ runs.flatten) := by
  induction hs generalizing a acc gs with
  | nil =>
    cases h
    exact ⟨[], .nil a, by simp, trivial, by simp, by simpa using hacc⟩
  | cons b hs ih =>
    obtain ⟨hfirst, hsorted⟩ := List.pairwise_cons.mp hsorted
    obtain ⟨hbfile, hbs⟩ := List.forall_mem_cons.mp hb
    have hoff := hfirst b List.mem_cons_self
    rw [replay_chain, List.zipWith_cons_cons, List.foldlM_cons] at h
    obtain ⟨next, hnext, h⟩ := except_bind_ok_iff.mp h
    cases hiv : verify_interval file a b base_height bucket with
    | error e =>
      rw [hiv] at hnext
      cases hnext
    | ok iv =>
      rw [hiv] at hnext
      obtain ⟨run, hreplays, hof⟩ := verify_interval_sound ha hoff hbfile hlen hiv
      have hne : run ≠ [] := by
        rintro rfl
        exact absurd hreplays.walk.nil_eq hoff.ne'
      obtain ⟨hasc, hacc'⟩ := (hacc.add hreplays.has_bucket hne hreplays.ascending hof).1 next hnext
      obtain ⟨runs, hhonest, hall, hasc', -, hlast⟩ := ih (ha.trans hoff.le) hreplays.len hsorted hbs hacc' h
      refine ⟨run :: runs, .cons hreplays.walk hreplays.coins hreplays.content hreplays.len hhonest,
        List.forall_mem_cons.mpr ⟨⟨hne, (unblocked_iff hreplays.walk).mpr hreplays.flows⟩, hall⟩, ?_,
        fun _ => hreplays.has_bucket, ?_⟩
      · rw [List.flatten_cons, ascending_append]
        rw [last_of, List.foldl_append] at hasc'
        exact ⟨hasc, hasc'⟩
      · rw [List.flatten_cons, ← List.append_assoc]
        exact hlast

section

variable (h : Honest file base_height a runs hs)
include h

theorem Honest.coins_le :
    ∀ b ∈ hs, b.coins ≤ a.coins + coin_count runs.flatten := by
  induction h with
  | nil a => simp
  | cons hw hcoins _ _ _ ih =>
    rw [List.flatten_cons, coin_count_append]
    refine List.forall_mem_cons.mpr ⟨by omega, fun c hc => ?_⟩
    have := ih c hc
    omega

theorem Honest.off_le (hne : ∀ run ∈ runs, run ≠ []) :
    (a :: hs).Pairwise (·.off < ·.off) ∧ ∀ b ∈ hs, a.off < b.off ∧ b.off ≤ file.length := by
  induction h with
  | nil a => exact ⟨List.pairwise_singleton _ _, by simp⟩
  | cons hw hcoins hstate hlen hrest ih =>
    rename_i a b run runs hs
    obtain ⟨hrun, hne⟩ := List.forall_mem_cons.mp hne
    obtain ⟨hsorted, hafter⟩ := ih hne
    obtain ⟨q, hq⟩ := List.exists_mem_of_ne_nil run hrun
    have hmem := hw.mem hq
    have hall : ∀ c ∈ b :: hs, a.off < c.off ∧ c.off ≤ file.length := by
      refine List.forall_mem_cons.mpr ⟨⟨by omega, hw.le.2⟩, fun c hc => ?_⟩
      have := hafter c hc
      exact ⟨by omega, this.2⟩
    exact ⟨List.pairwise_cons.mpr ⟨fun c hc => (hall c hc).1, hsorted⟩, hall⟩

theorem chain_complete (ha : HEADER_LEN ≤ a.off) (hlen : a.state.buf_len < 64)
    (hruns : ∀ run ∈ runs, run ≠ [] ∧ Unblocked run) (hcoins : ∀ b ∈ hs, b.coins < 2 ^ 64) (hb : bucket ≠ 0)
    {gs : List Placed} (hacc : acc.Of bucket gs) (hasc : Ascending (last_of none gs) runs.flatten) :
    (∀ r ∈ replay_chain file base_height bucket a hs, ∃ iv, r = .ok iv) ∧
      ∃ acc', (replay_chain file base_height bucket a hs).foldlM (gather_interval bucket) acc = .ok acc' := by
  induction h generalizing acc gs with
  | nil a => exact ⟨by simp [replay_chain], acc, rfl⟩
  | cons hw hsum hstate hblen hhonest ih =>
    rename_i a b run runs hs
    obtain ⟨⟨hne, hflows⟩, hruns⟩ := List.forall_mem_cons.mp hruns
    obtain ⟨hbcoins, hcoins⟩ := List.forall_mem_cons.mp hcoins
    rw [List.flatten_cons, ascending_append] at hasc
    obtain ⟨q, hq⟩ := List.exists_mem_of_ne_nil run hne
    have hoff : a.off < b.off := by
      have := hw.mem hq
      omega
    have hreplays : Replays file base_height bucket a b run :=
      ⟨hw, (unblocked_iff hw).mp hflows, ascending_none hasc.1, hb, hsum, hstate, hblen⟩
    obtain ⟨iv, hiv⟩ := verify_interval_complete ha hoff hw.le.2 hlen hbcoins hreplays
    obtain ⟨run', hreplays', hof⟩ := verify_interval_sound ha hoff hw.le.2 hlen hiv
    obtain rfl : run = run' := by
      rcases hw.compare hreplays'.walk with ⟨more, rfl, hmore⟩ | ⟨more, rfl, hmore⟩
      · cases more with
        | nil => rw [List.append_nil]
        | cons p more =>
          have := hmore.mem List.mem_cons_self
          omega
      · cases more with
        | nil => rw [List.append_nil]
        | cons p more =>
          have := hmore.mem List.mem_cons_self
          omega
    obtain ⟨hsound, hcomplete⟩ := hacc.add hb hne hreplays.ascending hof
    obtain ⟨next, hnext⟩ := hcomplete hasc.1
    obtain ⟨-, hnextof⟩ := hsound next hnext
    obtain ⟨hok, acc', hfold⟩ := ih (ha.trans hoff.le) hblen hruns hcoins hnextof
      (by rw [last_of, List.foldl_append]; exact hasc.2)
    rw [replay_chain, List.zipWith_cons_cons]
    refine ⟨List.forall_mem_cons.mpr ⟨⟨iv, hiv⟩, hok⟩, acc', ?_⟩
    rw [List.foldlM_cons]
    exact except_bind_ok_iff.mpr ⟨next, by rw [hiv]; exact hnext, hfold⟩

end

end Chain

section Checked

omit [ShaKernel] [PublicKeys] in
theorem ascend_iff (hs : List Hint) :
    ((hs.zip hs.tail).any fun w => w.2.off ≤ w.1.off) = false ↔ hs.Pairwise (·.off < ·.off) := by
  rw [← List.isChain_iff_pairwise]
  induction hs with
  | nil => simp
  | cons a hs ih =>
    cases hs with
    | nil => simp
    | cons b hs =>
      rw [List.isChain_cons_cons]
      refine Iff.trans ?_ (and_congr_right fun _ => ih)
      simp only [List.tail_cons, List.zip_cons_cons, List.any_cons, Bool.or_eq_false_iff, decide_eq_false_iff_not,
        not_le]

variable {hints : Hints} {threads : ℕ}

omit [ShaKernel] [PublicKeys] in
theorem hints_checked_iff {last : Hint} : hints_checked file hints = .ok (hdr, last) ↔
    read_header file = .ok hdr ∧ ∃ g tail, hints = ⟨file.length, hdr, g :: tail⟩ ∧ g.eq .genesis = true ∧
      (g :: tail).getLast? = some last ∧ last.off = file.length ∧ last.coins = hdr.coins_count ∧
      (g :: tail).Pairwise (·.off < ·.off) := by
  obtain ⟨file_len, header, hs⟩ := hints
  rw [hints_checked]
  cases hhdr : read_header file with
  | error e => simp [bind, Except.bind]
  | ok hdr' =>
    dsimp only [bind, Except.bind]
    by_cases hsame : file_len = file.length ∧ header = hdr'
    · obtain ⟨rfl, rfl⟩ := hsame
      rw [if_neg (by simp)]
      cases hs with
      | nil => simp [invalid]
      | cons g tail =>
        rw [List.head?_cons, Option.any_some]
        by_cases hg : g.eq .genesis = true
        · rw [hg, Bool.not_true, if_neg Bool.false_ne_true]
          obtain ⟨l, hl⟩ : ∃ l, (g :: tail).getLast? = some l := ⟨_, List.getLast?_eq_some_getLast (by simp)⟩
          rw [hl]
          dsimp only
          by_cases hend : l.off = file.length ∧ l.coins = header.coins_count
          · rw [if_neg (by simp [hend.1, hend.2])]
            by_cases hasc : ((g :: tail).zip (g :: tail).tail).any (fun w => w.2.off ≤ w.1.off) = true
            · rw [if_pos hasc]
              constructor
              · intro h
                cases h
              · rintro ⟨-, g', tail', heq, -, -, -, -, hsorted⟩
                cases heq
                rw [← ascend_iff, hasc] at hsorted
                cases hsorted
            · rw [if_neg hasc]
              rw [Bool.not_eq_true, ascend_iff] at hasc
              constructor
              · intro h
                obtain ⟨rfl, rfl⟩ := Prod.mk.inj (Except.ok.inj h)
                exact ⟨rfl, g, tail, rfl, hg, hl, hend.1, hend.2, hasc⟩
              · rintro ⟨hok, g', tail', heq, -, hlast, -, -, -⟩
                cases heq
                rw [hl] at hlast
                cases hlast
                cases hok
                rfl
          · rw [if_pos (by rw [← not_and_or]; exact hend)]
            constructor
            · intro h
              cases h
            · rintro ⟨hok, g', tail', heq, -, hlast, hoff, hcoins, -⟩
              cases heq
              rw [hl] at hlast
              cases hlast
              cases hok
              exact absurd ⟨hoff, hcoins⟩ hend
        · rw [Bool.eq_false_of_not_eq_true hg]
          constructor
          · intro h
            cases h
          · rintro ⟨-, g', tail', heq, hg', -⟩
            cases heq
            exact absurd hg' hg
    · rw [if_pos (by rw [← not_and_or]; exact hsame)]
      constructor
      · intro h
        cases h
      · rintro ⟨hok, g, tail, heq, -⟩
        cases heq
        cases hok
        exact absurd ⟨rfl, rfl⟩ hsame

variable {done : List (ℕ × Except ScanError Interval)} {g : Hint} {tail : List Hint}

omit [ShaKernel] [PublicKeys] in
theorem genesis_eq (h : g.eq .genesis = true) :
    g.off = HEADER_LEN ∧ g.coins = 0 ∧ g.state.content = ShaState.default.content ∧ g.state.buf_len = 0 := by
  rw [Hint.eq, Bool.and_eq_true, Bool.and_eq_true, beq_iff_eq, beq_iff_eq] at h
  obtain ⟨⟨hoff, hcoins⟩, hstate⟩ := h
  obtain ⟨hcontent, hlen⟩ := ShaState.eq_iff.mp hstate
  exact ⟨hoff, hcoins, hcontent, hlen⟩

theorem Honest.same {a a' : Hint} {hs : List Hint} (h : Honest file base_height a runs hs) (hoff : a.off = a'.off)
    (hcoins : a.coins = a'.coins) (hstate : a.state.content = a'.state.content) :
    Honest file base_height a' runs hs := by
  cases h with
  | nil => exact .nil a'
  | cons hw hsum hcontent hlen hrest => exact .cons (hoff ▸ hw) (hcoins ▸ hsum) (hstate ▸ hcontent) hlen hrest

theorem Honest.last {a : Hint} {hs : List Hint} (h : Honest file base_height a runs hs) (ha : a.off ≤ file.length)
    (hempty : a.state.content.update [] = a.state.content) (hlen : a.state.buf_len < 64) {last : Hint}
    (hlast : (a :: hs).getLast? = some last) :
    Walk file base_height a.off runs.flatten last.off ∧ last.coins = a.coins + coin_count runs.flatten ∧
      last.state.content = a.state.content.update (hashed runs.flatten) ∧ last.state.buf_len < 64 := by
  induction h with
  | nil a =>
    cases hlast
    exact ⟨.nil ha, rfl, hempty.symm, hlen⟩
  | cons hw hcoins hstate hblen hrest ih =>
    rename_i a b run runs hs
    rw [List.getLast?_cons_cons] at hlast
    obtain ⟨hwalk, hsum, hcontent, hlast'⟩ := ih hw.le.2
      (by rw [hstate, ShaState.Content.update_append, List.append_nil]) hblen hlast
    refine ⟨hw.append hwalk, ?_, ?_, hlast'⟩
    · rw [hsum, hcoins, List.flatten_cons, coin_count_append, Nat.add_assoc]
    · rw [hcontent, hstate, ShaState.Content.update_append, List.flatten_cons, hashed_append]

theorem results_in_order (hdone : HintedResults file threads base_height hints bucket done)
    (hhints : hints.hints = g :: tail) (hlen : done.length = hints.hints.length - 1) :
    (Pool.in_order done).map Prod.snd = replay_chain file base_height bucket g tail := by
  obtain ⟨hnumbers, hresults⟩ := hdone.in_order (by omega) hlen
  rw [hhints, List.length_cons, Nat.add_sub_cancel] at hnumbers
  have hcount : (Pool.in_order done).length = tail.length := by
    rw [← List.length_map (f := Prod.fst), hnumbers, List.length_range]
  refine List.ext_getElem? fun i => ?_
  by_cases hi : i < tail.length
  · obtain ⟨p, hp⟩ : ∃ p, (Pool.in_order done)[i]? = some p := ⟨_, List.getElem?_eq_getElem (by rwa [hcount])⟩
    obtain ⟨a, ha⟩ : ∃ a, (g :: tail)[i]? = some a := ⟨_, List.getElem?_eq_getElem (by rw [List.length_cons]; omega)⟩
    obtain ⟨b, hb⟩ : ∃ b, tail[i]? = some b := ⟨_, List.getElem?_eq_getElem hi⟩
    have hnumber : p.1 = i := by
      have hget := congrArg (·[i]?) hnumbers
      rw [List.getElem?_map, hp, Option.map_some, List.getElem?_range hi] at hget
      exact Option.some.inj hget
    have hresult := hresults p (List.mem_of_getElem? hp)
    rw [hnumber, interval_job, hhints, ha, List.getElem?_cons_succ, hb] at hresult
    have hsame : p.2 = verify_interval file a b base_height bucket := by
      dsimp only at hresult
      split at hresult
      · cases hresult
      · exact (Option.some.inj hresult).symm
    rw [List.getElem?_map, hp, replay_chain, List.getElem?_zipWith, ha, hb, Option.map_some, hsame]
  · rw [List.getElem?_eq_none (by rw [List.length_map, hcount]; omega),
      List.getElem?_eq_none (by rw [replay_chain, List.length_zipWith]; omega)]

theorem results_length (hdone : HintedResults file threads base_height hints bucket done)
    (hhints : hints.hints = g :: tail) (hok : ∀ r ∈ replay_chain file base_height bucket g tail, ∃ iv, r = .ok iv) :
    done.length = hints.hints.length - 1 := by
  refine hdone.length (by omega) fun j hj => ?_
  rw [hhints, List.length_cons, Nat.add_sub_cancel] at hj
  obtain ⟨a, ha⟩ : ∃ a, (g :: tail)[j]? = some a := ⟨_, List.getElem?_eq_getElem (by rw [List.length_cons]; omega)⟩
  obtain ⟨b, hb⟩ : ∃ b, tail[j]? = some b := ⟨_, List.getElem?_eq_getElem hj⟩
  obtain ⟨iv, hiv⟩ := hok (verify_interval file a b base_height bucket) (List.mem_of_getElem? (i := j) (by
    rw [replay_chain, List.getElem?_zipWith, ha, hb]))
  refine ⟨iv, ?_⟩
  rw [interval_job, hhints, ha, List.getElem?_cons_succ, hb]
  dsimp only
  rw [hiv]

structure Proven (file : List UInt8) (base_height bucket : ℕ) (hdr : Header) (hints : Hints)
    (runs : List (List Placed)) :
    Prop where
  parsed : Parsed file base_height bucket hdr runs.flatten
  runs_read : ∀ run ∈ runs, run ≠ [] ∧ Unblocked run
  hints_eq : ∃ g tail, hints = ⟨file.length, hdr, g :: tail⟩ ∧ g.eq .genesis = true ∧
    Honest file base_height .genesis runs tail

omit [ShaKernel] [PublicKeys] in
theorem read_header_coins (h : read_header file = .ok hdr) :
    hdr.coins_count < 2 ^ 64 ∧ hdr.network.length = 4 ∧ hdr.base_blockhash.length = 32 := by
  have hlen := read_header_length h
  rw [HEADER_LEN] at hlen
  rw [read_header] at h
  split_ifs at h
  · cases h
  · cases h
  obtain rfl := Except.ok.inj h
  refine ⟨?_, ?_, ?_⟩
  · refine (value_lt _).trans_le ?_
    rw [List.length_take]
    exact Nat.pow_le_pow_right (by decide) (Nat.min_le_left _ _)
  · rw [List.length_take, List.length_drop]
    omega
  · rw [List.length_take, List.length_drop]
    omega

omit [ShaKernel] in
theorem Parsed.coins {gs : List Placed} (h : Parsed file base_height bucket hdr gs) : coin_count gs =
    hdr.coins_count := by
  have hend := h.ended
  rw [tally_coins, check_end, if_neg (by simp)] at hend
  split_ifs at hend with hsum
  · cases hend
  · cases hend
  · have hzero : (empty_region HEADER_LEN, (none : Option ℕ)).1.coins = 0 := rfl
    rwa [not_not, hzero, Nat.zero_add] at hsum

theorem verify_hinted_iff
    (hdone :
    HintedResults file threads base_height hints bucket done) (report : List UInt8 × ℕ × ℕ × List (List UInt8 × ℕ)) :
    (∃ out, verify_hinted file hints bucket done = .ok out ∧ out.report = report) ↔
      ∃ hdr runs, read_header file = .ok hdr ∧ Proven file base_height bucket hdr hints runs ∧
        report = verdict bucket runs.flatten := by
  have hempty : ShaState.default.content.update [] = ShaState.default.content := by
    rw [ShaState.Content.update, absorb_all_short (by decide)]
    rfl
  constructor
  · rintro ⟨out, hok, rfl⟩
    obtain ⟨⟨hdr, last⟩, hchecked, hok⟩ := except_bind_ok_iff.mp hok
    obtain ⟨hhdr, g, tail, rfl, hg, hlast, hoff, hcoins, hsorted⟩ := hints_checked_iff.mp hchecked
    split_ifs at hok with hcount
    rw [not_not] at hcount
    obtain ⟨acc, hfold, hok⟩ := except_bind_ok_iff.mp hok
    obtain ⟨⟨⟩, hend, hok⟩ := except_bind_ok_iff.mp hok
    obtain ⟨hash, hfinish, hok⟩ := except_bind_ok_iff.mp hok
    obtain rfl := Except.ok.inj hok
    obtain ⟨hgoff, hgcoins, hgstate, hglen⟩ := genesis_eq hg
    rw [results_in_order hdone rfl hcount] at hfold
    have hwithin : ∀ h ∈ tail, h.off ≤ file.length := by
      intro h hh
      obtain ⟨init, hinit⟩ := List.getLast?_eq_some_iff.mp hlast
      have hmem : h ∈ init ++ [last] := hinit ▸ List.mem_cons_of_mem g hh
      rcases List.mem_append.mp hmem with hmem | hmem
      · rw [hinit] at hsorted
        exact ((List.pairwise_append.mp hsorted).2.2 h hmem last (by simp)).le.trans hoff.le
      · rw [List.mem_singleton.mp hmem, hoff]
    obtain ⟨runs, hhonest, hruns, hasc, hbucket, hacc⟩ := chain_sound hgoff.ge (by omega) hsorted hwithin
      (gathered_start bucket) hfold
    rw [List.nil_append] at hacc
    obtain ⟨hwalk, hsum, hcontent, hlen⟩ := hhonest.last (hgoff.trans_le (read_header_length hhdr))
      (by rw [hgstate, hempty]) (by omega) hlast
    rw [hoff, hgoff] at hwalk
    rw [hgcoins, Nat.zero_add] at hsum
    rw [hgstate] at hcontent
    have hzero : (empty_region HEADER_LEN, (none : Option ℕ)).1.coins = 0 := rfl
    have htotal : last.coins = (tally bucket (empty_region HEADER_LEN, none) runs.flatten).1.coins := by
      rw [tally_coins, hzero, Nat.zero_add, hsum]
    rw [finish_hash_eq hlen hcontent] at hfinish
    obtain rfl := Except.ok.inj hfinish
    rw [hoff, htotal, hacc.last_n, hacc.groups] at hend
    refine ⟨hdr, runs, hhdr, ⟨⟨hwalk, hasc, fun hne => hbucket ?_, hend⟩, hruns, g, tail, rfl, hg,
      hhonest.same hgoff hgcoins hgstate⟩, ?_⟩
    · rintro rfl
      cases hhonest
      exact hne rfl
    · rw [VerifyOut.report, verdict, counted]
      rw [htotal, hacc.groups, hacc.sparse]
  · rintro ⟨hdr, runs, hhdr, ⟨hparsed, hruns, g, tail, rfl, hg, hhonest⟩, rfl⟩
    obtain ⟨hgoff, hgcoins, hgstate, hglen⟩ := genesis_eq hg
    have hhonest' : Honest file base_height g runs tail := hhonest.same hgoff.symm hgcoins.symm hgstate.symm
    obtain ⟨last, hlast⟩ : ∃ last, (g :: tail).getLast? = some last := ⟨_, List.getLast?_eq_some_getLast (by simp)⟩
    obtain ⟨hwalk, hsum, hcontent, hlen⟩ := hhonest'.last (hgoff.trans_le (read_header_length hhdr))
      (by rw [hgstate, hempty]) (by omega) hlast
    rw [hgoff] at hwalk
    rw [hgcoins, Nat.zero_add, hparsed.coins] at hsum
    rw [hgstate] at hcontent
    have hoff : last.off = file.length := by
      rcases hwalk.compare hparsed.walk with ⟨more, hmore, hw⟩ | ⟨more, hmore, hw⟩
      · rw [List.self_eq_append_right.mp hmore] at hw
        exact hw.nil_eq.symm
      · rw [List.self_eq_append_right.mp hmore] at hw
        exact hw.nil_eq
    obtain ⟨hsorted, hwithin⟩ := hhonest'.off_le fun run hrun => (hruns run hrun).1
    have hcoins : ∀ b ∈ tail, b.coins < 2 ^ 64 := by
      intro b hb
      have hle := hhonest.coins_le b hb
      have hzero : Hint.genesis.coins = 0 := rfl
      rw [hzero, Nat.zero_add, hparsed.coins] at hle
      exact hle.trans_lt (read_header_coins hhdr).1
    have hchecked := hints_checked_iff.mpr ⟨hhdr, g, tail, rfl, hg, hlast, hoff, hsum, hsorted⟩
    have hfold : (∀ r ∈ replay_chain file base_height bucket g tail, ∃ iv, r = .ok iv) ∧
        ∃ acc, (replay_chain file base_height bucket g tail).foldlM (gather_interval bucket)
          ⟨0, [], 0, none, 0, none⟩ =
          .ok acc := by
      by_cases hnil : runs = []
      · subst hnil
        cases hhonest
        exact ⟨by simp [replay_chain], _, rfl⟩
      · obtain ⟨run, hrun⟩ := List.exists_mem_of_ne_nil runs hnil
        obtain ⟨q, hq⟩ := List.exists_mem_of_ne_nil run (hruns run hrun).1
        exact chain_complete hhonest' hgoff.ge (by omega) hruns hcoins
          (hparsed.has_bucket (List.ne_nil_of_mem (List.mem_flatten.mpr ⟨run, hrun, hq⟩))) (gathered_start bucket)
          hparsed.ascending
    obtain ⟨hok, acc, hfold⟩ := hfold
    obtain ⟨runs', hhonest'', -, -, -, hacc⟩ := chain_sound hgoff.ge (by omega) hsorted (fun h hh => (hwithin h hh).2)
      (gathered_start bucket) hfold
    have hsame : runs'.flatten = runs.flatten := by
      obtain ⟨hwalk', -, -, -⟩ := hhonest''.last (hgoff.trans_le (read_header_length hhdr)) (by rw [hgstate, hempty])
        (by omega) hlast
      rw [hgoff, hoff] at hwalk'
      exact hwalk'.unique hparsed.walk
    rw [List.nil_append, hsame] at hacc
    have hcount := results_length hdone rfl hok
    have hzero : (empty_region HEADER_LEN, (none : Option ℕ)).1.coins = 0 := rfl
    have htotal : last.coins = (tally bucket (empty_region HEADER_LEN, none) runs.flatten).1.coins := by
      rw [tally_coins, hzero, Nat.zero_add, hsum, hparsed.coins]
    refine ⟨⟨hash_of (hashed runs.flatten), last.coins, acc.groups, acc.sparse, acc.bytes_read⟩, ?_, ?_⟩
    · refine except_bind_ok_iff.mpr ⟨(hdr, last), hchecked, ?_⟩
      dsimp only
      rw [if_neg (not_not.mpr hcount), results_in_order hdone rfl hcount]
      refine except_bind_ok_iff.mpr ⟨acc, hfold, except_bind_ok_iff.mpr ⟨(), ?_, except_bind_ok_iff.mpr ⟨_, ?_, rfl⟩⟩⟩
      · rw [hoff, htotal, hacc.last_n, hacc.groups]
        exact hparsed.ended
      · rw [finish_hash_eq hlen hcontent]
        rfl
    · rw [VerifyOut.report, verdict, counted]
      rw [htotal, hacc.groups, hacc.sparse]

end Checked

end AvilaNode.Snapshot
