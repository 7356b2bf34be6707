import AvilaNode.SnapshotExact
import AvilaNode.SnapshotVerify

/-! The hints of one pass: each is the state of the hash at a boundary. -/

namespace AvilaNode.Snapshot

open ByteStrings ByteReader

def hashed (gs : List Placed) : List UInt8 := gs.flatMap fun p => p.group.ser

def coin_count (gs : List Placed) : ℕ := (gs.map fun p => p.group.n).sum

def stretches (every : ℕ) : ℕ → List Placed → List Placed → List (List Placed)
  | _, run, [] => [run]
  | next, run, p :: gs =>
    if next ≤ p.off then run :: stretches every (HEADER_LEN + ((p.off - HEADER_LEN) / every + 1) * every) [p] gs
    else stretches every next (run ++ [p]) gs

theorem stretches_flatten (every next : ℕ) (run gs : List Placed) : (stretches every next run gs).flatten =
    run ++ gs := by
  induction gs generalizing next run with
  | nil => rw [stretches, List.flatten_singleton, List.append_nil]
  | cons p gs ih =>
    rw [stretches]
    split_ifs
    · rw [List.flatten_cons, ih]
      rfl
    · rw [ih, List.append_assoc]
      rfl

variable {run : List Placed} {sha : ShaState} {p : Parsing} {front : List Hint} {h : Hint}

theorem stretches_ne (every next : ℕ) (gs : List Placed) (hrun : run ≠ []) :
    ∀ r ∈ stretches every next run gs, r ≠ [] := by
  induction gs generalizing next run with
  | nil => simpa [stretches] using hrun
  | cons p gs ih =>
    rw [stretches]
    split_ifs
    · exact List.forall_mem_cons.mpr ⟨hrun, ih _ (by simp)⟩
    · exact ih _ (by simp)

theorem coin_count_append (gs more : List Placed) : coin_count (gs ++ more) = coin_count gs + coin_count more := by
  rw [coin_count, List.map_append, List.sum_append]
  rfl

theorem hashed_append (gs more : List Placed) : hashed (gs ++ more) = hashed gs ++ hashed more := List.flatMap_append

theorem tally_coins (bucket : ℕ) (acc : Region × Option ℕ) (gs : List Placed) :
    (tally bucket acc gs).1.coins = acc.1.coins + coin_count gs := by
  induction gs generalizing acc with
  | nil => rfl
  | cons p gs ih =>
    have hstep := ih (add_group bucket acc p)
    have hcoins : (add_group bucket acc p).1.coins = acc.1.coins + p.group.n := rfl
    rw [hcoins, Nat.add_assoc] at hstep
    exact hstep

theorem tally_groups (bucket : ℕ) (acc : Region × Option ℕ) (gs : List Placed) :
    (tally bucket acc gs).1.groups = acc.1.groups + gs.length := by
  induction gs generalizing acc with
  | nil => rfl
  | cons p gs ih =>
    have hstep := ih (add_group bucket acc p)
    have hgroups : (add_group bucket acc p).1.groups = acc.1.groups + 1 := rfl
    rw [hgroups, Nat.add_assoc, Nat.add_comm 1] at hstep
    exact hstep

variable [ShaKernel] [PublicKeys]

inductive Honest (file : List UInt8) (base_height : ℕ) : Hint → List (List Placed) → List Hint → Prop
  | nil (a : Hint) : Honest file base_height a [] []
  | cons {a b : Hint} {run : List Placed} {runs : List (List Placed)} {hs : List Hint}
    (hw : Walk file base_height a.off run b.off) (hcoins : b.coins = a.coins + coin_count run)
    (hstate : b.state.content = a.state.content.update (hashed run)) (hlen : b.state.buf_len < 64)
    (h : Honest file base_height b runs hs) : Honest file base_height a (run :: runs) (b :: hs)

structure Hashes (msgs : List Msg) (ser : List UInt8) (front : List Hint) (h : Hint) (run : List Placed)
    (sha : ShaState) :
    Prop where
  sent : hasher msgs = .ok (sha, front ++ [h])
  sha_len : sha.buf_len < 64
  hint_len : h.state.buf_len < 64
  content : sha.content.update ser = h.state.content.update (hashed run)

variable {acc : Region × Option ℕ} {hints : List Hint} {gs : List Placed} {msgs : List Msg}

omit [PublicKeys] in
theorem hasher_data (h : hasher msgs = .ok (sha, hints)) (hlen : sha.buf_len < 64) (v : List UInt8) :
    ∃ sha', hasher (msgs ++ [.Data v]) = .ok (sha', hints) ∧
      sha'.buf_len < 64 ∧ sha'.content = sha.content.update v := by
  obtain ⟨sha', hupdate, hlen', hcontent⟩ := ShaState.update_content hlen.le v
  refine ⟨sha', ?_, hlen', hcontent⟩
  rw [hasher, List.foldlM_append]
  rw [hasher] at h
  rw [h]
  change (hasher_step (sha, hints) (.Data v) >>= fun acc => pure acc) = _
  rw [hasher_step]
  rw [hupdate]
  rfl

omit [PublicKeys] in
theorem hasher_mark (h : hasher msgs = .ok (sha, hints)) (off coins : ℕ) :
    hasher (msgs ++ [.Mark off coins]) = .ok (sha, hints ++ [⟨off, coins, sha⟩]) := by
  rw [hasher, List.foldlM_append]
  rw [hasher] at h
  rw [h]
  rfl

structure Tallied (p : Parsing) (acc : Region × Option ℕ) : Prop where
  coins : p.r.coins = acc.1.coins
  groups : p.r.groups = acc.1.groups
  sparse : p.r.sparse = acc.1.sparse
  last_txid : p.r.last_txid = acc.1.last_txid
  last_n : p.r.last_n = acc.1.last_n
  bucket : p.prev_bucket = acc.2

omit [ShaKernel] [PublicKeys] in
theorem tallied_start (next_mark : ℕ) :
    Tallied ⟨empty_region HEADER_LEN, none, [], next_mark, []⟩ (empty_region HEADER_LEN, none) :=
  ⟨rfl, rfl, rfl, rfl, rfl, rfl⟩

def marked (every : ℕ) (p : Parsing) (q : Placed) : Parsing :=
  if p.next_mark ≤ q.off then
    { p with
      ser := q.group.ser, msgs := p.msgs ++ [.Data p.ser, .Mark q.off p.r.coins]
      next_mark := HEADER_LEN + ((q.off - HEADER_LEN) / every + 1) * every }
  else { p with ser := p.ser ++ q.group.ser }

def pushed (bucket : ℕ) (p : Parsing) (q : Placed) : Parsing :=
  let b := (q.off - HEADER_LEN) / bucket
  let r := { p.r with
    last_txid := some q.group.txid,
    sparse := if some b ≠ p.prev_bucket then p.r.sparse ++ [(q.group.txid, q.off)] else p.r.sparse,
    coins := p.r.coins + q.group.n, groups := p.r.groups + 1, last_n := q.group.n }
  if SER_CHUNK ≤ p.ser.length then
    { p with r := r, prev_bucket := some b, ser := [], msgs := p.msgs ++ [.Data p.ser] }
  else { p with r := r, prev_bucket := some b }

omit [ShaKernel] [PublicKeys] in
theorem stream_push_ok_iff (every bucket : ℕ) (p p' : Parsing) (q : Placed) :
    stream_push every bucket p q.off q.group = .ok p' ↔
      (p.r.last_txid.any fun t => txid_le q.group.txid t) = false ∧ bucket ≠ 0 ∧
        p' = pushed bucket (marked every p q) q := by
  have hlast : (marked every p q).r = p.r := by
    rw [marked]
    split_ifs <;> rfl
  have hpush : stream_push every bucket p q.off q.group =
      if (marked every p q).r.last_txid.any fun t => txid_le q.group.txid t then invalid "txids out of order"
      else bucket_of q.off bucket >>= fun _ => .ok (pushed bucket (marked every p q) q) := by
    rw [stream_push, pushed, marked]
    dsimp only
    congr 1
    by_cases hb : bucket = 0
    · rw [bucket_of, if_pos hb]
      rfl
    · rw [bucket_of, if_neg hb]
      change Except.ok _ = Except.ok _
      split_ifs <;> rfl
  rw [hpush, hlast]
  cases hany : (p.r.last_txid.any fun t => txid_le q.group.txid t) with
  | true =>
    rw [if_pos rfl]
    simp [invalid]
  | false =>
    rw [if_neg Bool.false_ne_true, bucket_of]
    by_cases hb : bucket = 0
    · rw [if_pos hb]
      simp [bind, Except.bind, hb]
    · rw [if_neg hb]
      simp only [bind, Except.bind, Except.ok.injEq, true_and, ne_eq, hb, not_false_eq_true]
      exact eq_comm

omit [ShaKernel] [PublicKeys] in
theorem Tallied.after_push (h : Tallied p acc) (every bucket : ℕ) (q : Placed) :
    Tallied (pushed bucket (marked every p q) q) (add_group bucket acc q) := by
  have hr : (marked every p q).r = p.r ∧ (marked every p q).prev_bucket = p.prev_bucket := by
    rw [marked]
    split_ifs <;> exact ⟨rfl, rfl⟩
  obtain ⟨hcoins, hgroups, hsparse, hlast, hn, hbucket⟩ := h
  rw [pushed, hr.1, hr.2, add_group]
  split_ifs with hser hnew hnew <;>
    exact ⟨congrArg (· + q.group.n) hcoins, congrArg (· + 1) hgroups, by simp_all, rfl, rfl, rfl⟩

section

variable (hh : Hashes p.msgs p.ser front h run sha)
include hh

omit [PublicKeys] in
theorem Hashes.after_push (bucket : ℕ) (q : Placed) :
    ∃ sha', Hashes (pushed bucket p q).msgs (pushed bucket p q).ser front h run sha' := by
  by_cases hser : SER_CHUNK ≤ p.ser.length
  · obtain ⟨sha', hsent, hlen, hcontent⟩ := hasher_data hh.sent hh.sha_len p.ser
    rw [pushed, if_pos hser]
    refine ⟨sha', hsent, hlen, hh.hint_len, ?_⟩
    rw [hcontent, ShaState.Content.update_append, List.append_nil]
    exact hh.content
  · rw [pushed, if_neg hser]
    exact ⟨sha, hh⟩

omit [PublicKeys] in
theorem Hashes.after_mark (every : ℕ) (q : Placed) (hmark : p.next_mark ≤ q.off) :
    ∃ sha', sha'.content = h.state.content.update (hashed run) ∧
      Hashes (marked every p q).msgs (marked every p q).ser (front ++ [h]) ⟨q.off, p.r.coins, sha'⟩ [q] sha' := by
  obtain ⟨sha', hsent, hlen, hcontent⟩ := hasher_data hh.sent hh.sha_len p.ser
  refine ⟨sha', hcontent.trans hh.content, ?_⟩
  rw [marked, if_pos hmark]
  have hmarked := hasher_mark hsent q.off p.r.coins
  rw [List.append_assoc] at hmarked
  exact ⟨hmarked, hlen, hlen, by rw [hashed, List.flatMap_singleton]⟩

omit [PublicKeys] in
theorem Hashes.without_mark (every : ℕ) (q : Placed) (hmark : ¬p.next_mark ≤ q.off) :
    Hashes (marked every p q).msgs (marked every p q).ser front h (run ++ [q]) sha := by
  rw [marked, if_neg hmark]
  refine ⟨hh.sent, hh.sha_len, hh.hint_len, ?_⟩
  rw [← ShaState.Content.update_append, hh.content, ShaState.Content.update_append, hashed_append]
  congr 2
  rw [hashed, List.flatMap_singleton]

end

structure Finished (file : List UInt8) (base_height : ℕ) (p : Parsing) (front : List Hint) (h : Hint)
    (runs : List (List Placed)) (b : ℕ) (sha : ShaState) (tail : List Hint) : Prop where
  sent : hasher (p.msgs ++ [.Data p.ser] ++ [.Mark b p.r.coins]) = .ok (sha, front ++ [h] ++ tail)
  len : sha.buf_len < 64
  content : sha.content = h.state.content.update (hashed runs.flatten)
  honest : Honest file base_height h runs tail

theorem stream_groups {file : List UInt8} {base_height off b : ℕ} (every bucket : ℕ)
    (hgs : Walk file base_height off gs b) (ht : Tallied p acc) (hh : Hashes p.msgs p.ser front h run sha)
    (hrun : Walk file base_height h.off run off) (hcoins : p.r.coins = h.coins + coin_count run) :
    (∀ p', push_all (stream_push every bucket) p gs = .ok p' → Ascending acc.1.last_txid gs ∧ (gs ≠ [] → bucket ≠ 0) ∧
      Tallied p' (tally bucket acc gs) ∧ ∃ sha' tail,
        Finished file base_height p' front h (stretches every p.next_mark run gs) b sha' tail) ∧
    (Ascending acc.1.last_txid gs → (gs ≠ [] → bucket ≠ 0) →
      ∃ p', push_all (stream_push every bucket) p gs = .ok p') := by
  induction gs generalizing off p acc front h run sha with
  | nil =>
    cases hgs
    refine ⟨?_, fun _ _ => ⟨p, rfl⟩⟩
    intro p' hpush
    cases hpush
    obtain ⟨sha', hsent, hlen, hcontent⟩ := hasher_data hh.sent hh.sha_len p.ser
    rw [hh.content] at hcontent
    refine ⟨trivial, by simp, ht, sha', [⟨b, p.r.coins, sha'⟩], hasher_mark hsent b p.r.coins, hlen, ?_, ?_⟩
    · rw [stretches, List.flatten_singleton]
      exact hcontent
    · exact .cons hrun hcoins hcontent hlen (.nil _)
  | cons q gs ih =>
    obtain ⟨hoff, hgroup, hwalk⟩ := hgs.head
    subst hoff
    have hnext := ht.after_push every bucket q
    have hmark : (pushed bucket (marked every p q) q).next_mark = (marked every p q).next_mark := by
      rw [pushed]
      split_ifs <;> rfl
    have hqs : Walk file base_height q.off [q] (q.off + q.len) :=
      .cons rfl hgroup (.nil (hwalk.le.1.trans hwalk.le.2))
    have hsum : (pushed bucket (marked every p q) q).r.coins = p.r.coins + q.group.n := by
      rw [hnext.coins, ht.coins]
      rfl
    -- the rest of the groups from here, whether or not a mark is in front of this one
    have hrest : ∃ front' h' run' sha', Hashes (pushed bucket (marked every p q) q).msgs
        (pushed bucket (marked every p q) q).ser front' h' run' sha' ∧
          Walk file base_height h'.off run' (q.off + q.len) ∧
        (pushed bucket (marked every p q) q).r.coins = h'.coins + coin_count run' ∧
        ∀ p' sha'' tail, Finished file base_height p' front' h'
          (stretches every (marked every p q).next_mark run' gs) b sha''
          tail → ∃ tail', Finished file base_height p' front h
            (stretches every p.next_mark run (q :: gs)) b sha'' tail' := by
      by_cases hlate : p.next_mark ≤ q.off
      · obtain ⟨sha', hcontent, hmarked⟩ := hh.after_mark every q hlate
        obtain ⟨sha'', hpushed⟩ := hmarked.after_push bucket q
        refine ⟨_, _, _, sha'', hpushed, hqs, ?_, ?_⟩
        · rw [hsum]
          simp [coin_count]
        · intro p' last tail hfinished
          refine ⟨⟨q.off, p.r.coins, sha'⟩ :: tail, ?_, hfinished.len, ?_, ?_⟩
          · rw [hfinished.sent]
            simp
          · rw [hfinished.content]
            rw [hcontent, ShaState.Content.update_append, stretches_flatten, stretches_flatten, ← hashed_append]
            rfl
          · rw [stretches, if_pos hlate]
            refine .cons hrun hcoins hcontent hmarked.hint_len ?_
            have hmarks : (marked every p q).next_mark = HEADER_LEN + ((q.off - HEADER_LEN) / every + 1) * every := by
              rw [marked, if_pos hlate]
            rw [← hmarks]
            exact hfinished.honest
      · obtain ⟨sha', hpushed⟩ := (hh.without_mark every q hlate).after_push bucket q
        refine ⟨_, _, _, sha', hpushed, hrun.append hqs, ?_, ?_⟩
        · rw [hsum, hcoins, coin_count_append, Nat.add_assoc]
          simp [coin_count]
        · intro p' last tail hfinished
          have hmarks : (marked every p q).next_mark = p.next_mark := by
            rw [marked, if_neg hlate]
          rw [hmarks] at hfinished
          refine ⟨tail, ?_⟩
          rw [stretches, if_neg hlate]
          exact hfinished
    obtain ⟨front', h', run', sha', hhashes, hrun', hcoins', hback⟩ := hrest
    obtain ⟨hsound, hcomplete⟩ := ih hwalk hnext hhashes hrun' hcoins'
    rw [hmark] at hsound
    constructor
    · intro p' hpush
      obtain ⟨next, hok, hpush⟩ := (push_all_cons _ _ _ _).mp hpush
      obtain ⟨hany, hb, rfl⟩ := (stream_push_ok_iff _ _ _ _ _).mp hok
      obtain ⟨hasc, -, htally, sha'', tail, hfinished⟩ := hsound p' hpush
      obtain ⟨tail', hfinished'⟩ := hback p' sha'' tail hfinished
      exact ⟨⟨ht.last_txid ▸ hany, hasc⟩, fun _ => hb, htally, sha'', tail', hfinished'⟩
    · rintro ⟨hany, hasc⟩ hb
      have hb' := hb (List.cons_ne_nil q gs)
      obtain ⟨p', hpush⟩ := hcomplete hasc fun _ => hb'
      exact ⟨p', (push_all_cons _ _ _ _).mpr
        ⟨_, (stream_push_ok_iff _ _ _ _ _).mpr ⟨ht.last_txid ▸ hany, hb', rfl⟩, hpush⟩⟩

section Stream

variable {file : List UInt8} {base_height bucket : ℕ} {hdr : Header}

omit [ShaKernel] in
theorem new_loop_ok_iff {σ : Type} {push : σ → ℕ → Group → Except ScanError σ} {start limit : ℕ} (stop : Option ℕ)
    (open_end : Bool) (hheader : HEADER_LEN ≤ start) (hstart : start ≤ file.length) (hlimit : start ≤ limit)
    (haligned : file.length ≤ limit ∨ ALIGN ∣ limit) (hlt : align_down start < min limit file.length)
    (hstop : ∀ t ∈ stop, start < t) (acc acc' : σ) (b : ℕ) :
    (∃ s', group_loop file base_height stop open_end push (loop_turns file) (Stream.new file.length start limit) acc =
        .ok (s', acc') ∧ s'.off = b) ↔
      ∃ gs, Pass (file.take (min limit file.length)) base_height start stop open_end start gs b ∧
        push_all push acc gs = .ok acc' := by
  obtain ⟨s, hfill, hs, hoff, hl⟩ := open_stream hstart hlimit haligned hlt
  have hturns : (s.limit - s.off) + (s.limit - s.next) < 2 * file.length := by
    have h := hs.limit_le
    have h' := hs.off_le
    rw [HEADER_LEN] at hheader
    omega
  have hnot : ¬stop.any (· ≤ (Stream.new file.length start limit).off) = true := by
    intro hany
    obtain ⟨t, ht, hle⟩ := (Option.any_eq_true _ _).mp hany
    have hfirst := (align_down_le start).1
    have hbefore := hstop t ht
    have hle' : t ≤ align_down start := of_decide_eq_true hle
    omega
  have hloop : group_loop file base_height stop open_end push (loop_turns file)
    (Stream.new file.length start limit) acc =
      group_loop file base_height stop open_end push (2 * file.length) s acc := by
    rw [loop_turns, group_loop, if_neg hnot, show (Stream.new file.length start limit).window = [] from rfl,
      window_group_empty]
    rw [hfill]
    rfl
  rw [hloop]
  have h := @group_loop_ok_iff _ _ file base_height start stop open_end push (2 * file.length) s hs hturns acc acc' b
  rwa [hl, hoff] at h

omit [PublicKeys]

def hash_of (data : List UInt8) : List UInt8 := ((ShaState.default.update data).bind finish_hash).getD []

theorem finish_hash_eq {data : List UInt8} (hlen : sha.buf_len < 64)
    (hcontent : sha.content = ShaState.default.content.update data) : finish_hash sha = some (hash_of data) := by
  obtain ⟨s, hs, hslen, hscontent⟩ := ShaState.update_content (s := .default) (Nat.zero_le _) data
  have hsame : finish_hash sha = finish_hash s := by
    rw [finish_hash, finish_hash, ShaState.finalize_content hlen hslen (hcontent.trans hscontent.symm)]
  have hsome : ∃ bytes, finish_hash s = some bytes := by
    rw [finish_hash, ShaState.finalize, if_neg (by omega)]
    exact ⟨_, rfl⟩
  obtain ⟨bytes, hbytes⟩ := hsome
  rw [hsame, hash_of, hs, Option.bind_some, hbytes, Option.getD_some]

def verdict (bucket : ℕ) (gs : List Placed) : List UInt8 × ℕ × ℕ × List (List UInt8 × ℕ) :=
  (hash_of (hashed gs), counted bucket gs)

def VerifyOut.report (out : VerifyOut) : List UInt8 × ℕ × ℕ × List (List UInt8 × ℕ) :=
  (out.hash, out.coins, out.groups, out.sparse)

def hinted_runs (every : ℕ) (gs : List Placed) : List (List Placed) :=
  if gs = [] then [] else stretches (max every 1) (HEADER_LEN + max every 1) [] gs

variable [PublicKeys]

omit [PublicKeys] in
theorem hashes_start : Hashes [] [] [] .genesis [] .default :=
  ⟨rfl, by decide, by decide, rfl⟩

theorem verify_stream_sound (hhdr : read_header file = .ok hdr) {every : ℕ} {out : VerifyOut} {hints : Hints}
    (h : verify_stream file base_height every bucket = .ok (out, hints)) : ∃ gs tail,
      Parsed file base_height bucket hdr gs ∧ (∀ p ∈ gs, ¬Blocked HEADER_LEN p) ∧ HEADER_LEN + max every 1 < 2 ^ 64 ∧
      Honest file base_height .genesis (hinted_runs every gs) tail ∧ hints = ⟨file.length, hdr, .genesis :: tail⟩ ∧
      out.report = verdict bucket gs := by
  have hlen := read_header_length hhdr
  rw [verify_stream, hhdr] at h
  obtain ⟨hdr', hsame, h⟩ := except_bind_ok_iff.mp h
  obtain rfl := Except.ok.inj hsame
  obtain ⟨next, hnext, h⟩ := except_bind_ok_iff.mp h
  obtain ⟨⟨s, p⟩, hloop, h⟩ := except_bind_ok_iff.mp h
  obtain ⟨⟨sha, hs⟩, hhash, h⟩ := except_bind_ok_iff.mp h
  obtain ⟨⟨⟩, hend, h⟩ := except_bind_ok_iff.mp h
  obtain ⟨hash, hfinish, h⟩ := except_bind_ok_iff.mp h
  obtain ⟨rfl, rfl⟩ := Prod.mk.inj (Except.ok.inj h)
  have hfits : HEADER_LEN + max every 1 < 2 ^ 64 ∧ next = HEADER_LEN + max every 1 := by
    rw [checked_add] at hnext
    split_ifs at hnext with hlt
    · exact ⟨hlt, (Except.ok.inj hnext).symm⟩
    · cases hnext
  obtain ⟨hfits, rfl⟩ := hfits
  obtain ⟨gs, hpass, hpush⟩ := (new_loop_ok_iff none true le_rfl hlen hlen (Or.inl le_rfl)
    (by rw [Nat.min_self]; exact (show align_down HEADER_LEN < HEADER_LEN by decide).trans_le hlen)
    (by simp) _ _ _).mp
    ⟨s, hloop, rfl⟩
  rw [Nat.min_self, List.take_length] at hpass
  have hstop : s.off = file.length := by
    rcases hpass.ended with ⟨t, ht, -⟩ | ⟨-, hstop⟩
    · cases ht
    · exact hstop
  rw [hstop] at hpass hhash hend
  have hwalk := hpass.walk
  obtain ⟨hasc, hb, htally, sha', tail, hfinished⟩ :=
    (stream_groups (max every 1) bucket hwalk (tallied_start (HEADER_LEN + max every 1))
    hashes_start (.nil hlen) rfl).1 p hpush
  rw [htally.coins, htally.last_n, htally.groups] at hend
  have hparsed : Parsed file base_height bucket hdr gs := ⟨hwalk, hasc, hb, hend⟩
  have hreport : (⟨hash, p.r.coins, p.r.groups, p.r.sparse, s.read⟩ : VerifyOut).report =
      (hash, counted bucket gs) := by
    rw [VerifyOut.report, counted]
    rw [htally.coins, htally.groups, htally.sparse]
  by_cases hnil : gs = []
  · subst hnil
    cases hpush
    obtain ⟨sha', hsent, hlen', hcontent⟩ := hasher_data hashes_start.sent (by decide) []
    rw [(Pass.nil_iff.mp hpass).1, if_neg (Nat.lt_irrefl _), List.append_nil, hsent] at hhash
    obtain ⟨rfl, rfl⟩ := Prod.mk.inj (Except.ok.inj hhash)
    rw [finish_hash_eq hlen' hcontent] at hfinish
    obtain rfl := Except.ok.inj hfinish
    exact ⟨[], [], hparsed, hpass.flows, hfits, .nil _, rfl, hreport⟩
  · have hmark : HEADER_LEN < file.length := by
      obtain ⟨q, hq⟩ := List.exists_mem_of_ne_nil gs hnil
      have := hwalk.mem hq
      omega
    rw [if_pos hmark] at hhash
    rw [hfinished.sent] at hhash
    obtain ⟨rfl, rfl⟩ := Prod.mk.inj (Except.ok.inj hhash)
    have hcontent := hfinished.content
    rw [stretches_flatten, List.nil_append] at hcontent
    rw [finish_hash_eq hfinished.len hcontent] at hfinish
    obtain rfl := Except.ok.inj hfinish
    refine ⟨gs, tail, hparsed, hpass.flows, hfits, ?_, by simp, hreport⟩
    rw [hinted_runs, if_neg hnil]
    exact hfinished.honest

theorem verify_stream_complete (hhdr : read_header file = .ok hdr) {every : ℕ}
    (hparsed : Parsed file base_height bucket hdr gs) (hflows : ∀ p ∈ gs, ¬Blocked HEADER_LEN p)
    (hfits : HEADER_LEN + max every 1 < 2 ^ 64) : ∃ out hints,
      verify_stream file base_height every bucket = .ok (out, hints) := by
  have hlen := read_header_length hhdr
  have hsound := stream_groups (max every 1) bucket hparsed.walk
    (tallied_start (HEADER_LEN + max every 1)) hashes_start
    (.nil hlen) rfl
  obtain ⟨p, hpush⟩ := hsound.2 hparsed.ascending hparsed.has_bucket
  obtain ⟨-, -, htally, sha', tail, hfinished⟩ := hsound.1 p hpush
  obtain ⟨s, hloop, hstop⟩ := (new_loop_ok_iff none true le_rfl hlen hlen (Or.inl le_rfl)
    (by rw [Nat.min_self]; exact (show align_down HEADER_LEN < HEADER_LEN by decide).trans_le hlen) (by simp) _ _
      file.length).mpr ⟨gs, by
      rw [Nat.min_self, List.take_length]
      exact ⟨hparsed.walk, by simp, Or.inr ⟨rfl, rfl⟩, hflows⟩, hpush⟩
  have hhash : ∃ sha hs,
    hasher (p.msgs ++ [.Data p.ser] ++ if HEADER_LEN < s.off then [.Mark s.off p.r.coins] else []) =
      .ok (sha, hs) ∧ sha.buf_len < 64 := by
    by_cases hmark : HEADER_LEN < s.off
    · rw [if_pos hmark, hstop]
      exact ⟨_, _, hfinished.sent, hfinished.len⟩
    have hnil : gs = [] := by
      by_contra hne
      obtain ⟨q, hq⟩ := List.exists_mem_of_ne_nil gs hne
      have := hparsed.walk.mem hq
      omega
    subst hnil
    cases hpush
    obtain ⟨sha', hsent, hlen', -⟩ := hasher_data hashes_start.sent (by decide) []
    rw [if_neg hmark, List.append_nil]
    exact ⟨_, _, hsent, hlen'⟩
  obtain ⟨sha, hs, hhash, hshalen⟩ := hhash
  have hfinish : ∃ hash, finish_hash sha = some hash := by
    rw [finish_hash, ShaState.finalize, if_neg (by omega)]
    exact ⟨_, rfl⟩
  obtain ⟨hash, hfinish⟩ := hfinish
  have hend := hparsed.ended
  rw [← htally.coins, ← htally.last_n, ← htally.groups] at hend
  refine ⟨⟨hash, p.r.coins, p.r.groups, p.r.sparse, s.read⟩, ⟨file.length, hdr, hs⟩, ?_⟩
  rw [verify_stream, hhdr]
  refine except_bind_ok_iff.mpr ⟨hdr, rfl, except_bind_ok_iff.mpr ⟨HEADER_LEN + max every 1, ?_, ?_⟩⟩
  · rw [checked_add, if_pos hfits]
    rfl
  · refine except_bind_ok_iff.mpr ⟨(s, p), hloop, except_bind_ok_iff.mpr ⟨(sha, hs), hhash, ?_⟩⟩
    refine except_bind_ok_iff.mpr ⟨(), by rw [hstop]; exact hend, except_bind_ok_iff.mpr ⟨hash, ?_, rfl⟩⟩
    rw [hfinish]
    rfl

end Stream

end AvilaNode.Snapshot
