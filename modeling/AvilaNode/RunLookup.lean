import AvilaNode.RunFile

/-! When the point lookups of a sorted run answer exactly the coins pushed into it. -/

namespace AvilaNode

open ByteStrings CoinCodec

namespace RunFile

theorem sample_append (stride i pos : ℕ) (a b : List (RunKey × List UInt8)) :
    sample stride i pos (a ++ b) =
      sample stride i pos a ++ sample stride (i + a.length) (pos + records_bytes a) b := by
  induction a generalizing i pos with
  | nil => simp [sample, records_bytes]
  | cons r a ih =>
    have hbytes : records_bytes (r :: a) = record_bytes r + records_bytes a := by simp [records_bytes]
    have hi : i + (r :: a).length = i + 1 + a.length := by rw [List.length_cons]; omega
    rw [List.cons_append, sample, sample, ih, hbytes, hi, Nat.add_assoc pos]
    split <;> rfl

variable {stride pos : ℕ}

theorem mem_sample {i : ℕ} {rs : List (RunKey × List UInt8)} {e : RunKey × ℕ} (h : e ∈ sample stride i pos rs) :
    (∃ r ∈ rs, r.1 = e.1) ∧ pos ≤ e.2 ∧ e.2 ≤ pos + records_bytes rs := by
  induction rs generalizing i pos with
  | nil => cases h
  | cons r rs ih =>
    have hbytes : records_bytes (r :: rs) = record_bytes r + records_bytes rs := by simp [records_bytes]
    have rest : e ∈ sample stride (i + 1) (pos + record_bytes r) rs →
        (∃ r' ∈ r :: rs, r'.1 = e.1) ∧ pos ≤ e.2 ∧ e.2 ≤ pos + records_bytes (r :: rs) := by
      intro he
      obtain ⟨⟨r', hr', hk⟩, hlo, hhi⟩ := ih he
      exact ⟨⟨r', List.mem_cons_of_mem _ hr', hk⟩, by omega, by omega⟩
    rw [sample] at h
    split at h
    · rcases List.mem_cons.mp h with rfl | h
      · exact ⟨⟨r, List.mem_cons_self, rfl⟩, by omega, by omega⟩
      · exact rest h
    · exact rest h

theorem sample_unsampled {i : ℕ} {rs : List (RunKey × List UInt8)} (h : ∀ k < rs.length, (i + k) % stride ≠ 0) :
    sample stride i pos rs = [] := by
  induction rs generalizing i pos with
  | nil => rfl
  | cons r rs ih =>
    rw [sample, if_neg (by simpa using h 0 (by simp))]
    exact ih fun k hk => by simpa [Nat.add_assoc, Nat.add_comm 1] using h (k + 1) (by simpa using hk)

def stretch (stride m : ℕ) (rs : List (RunKey × List UInt8)) : List (RunKey × List UInt8) := rs.drop (m - m % stride)

theorem sub_mod_mod (m stride : ℕ) : (m - m % stride) % stride = 0 := by
  rw [Nat.sub_mod_eq_zero_of_mod_eq (by rw [Nat.mod_mod])]

theorem sample_last {m : ℕ} {pre : List (RunKey × List UInt8)} (hm : pre.length = m + 1) (pos : ℕ) :
    ∃ r q earlier, stretch stride m pre = r :: q ∧ q.length = m % stride ∧
      sample stride 0 pos pre = earlier ++ [(r.1, pos + records_bytes (pre.take (m - m % stride)))] := by
  have hle := Nat.mod_le m stride
  obtain ⟨r, q, hrq⟩ : ∃ r q, stretch stride m pre = r :: q := by
    apply List.exists_cons_of_ne_nil
    rw [stretch, Ne, List.drop_eq_nil_iff]
    omega
  have hlen : q.length = m % stride := by
    have h := congrArg List.length hrq
    rw [stretch, List.length_drop, List.length_cons] at h
    omega
  refine ⟨r, q, sample stride 0 pos (pre.take (m - m % stride)), hrq, hlen, ?_⟩
  have hsplit : pre = pre.take (m - m % stride) ++ r :: q := by
    rw [← hrq, stretch, List.take_append_drop]
  have htake : (pre.take (m - m % stride)).length = m - m % stride := by
    rw [List.length_take]
    omega
  have hq : ∀ at_, sample stride (m - m % stride + 1) at_ q = [] := by
    intro at_
    apply sample_unsampled
    intro k hk
    rw [hlen] at hk
    have hlast : (m - m % stride + 1 + k) % stride = (1 + k) % stride := by
      rw [Nat.add_assoc, Nat.add_mod, sub_mod_mod, Nat.zero_add, Nat.mod_mod]
    rcases Nat.eq_zero_or_pos stride with rfl | hs
    · omega
    · have := Nat.mod_lt m hs
      rw [hlast, Nat.mod_eq_of_lt (by omega)]
      omega
  conv_lhs => rw [hsplit]
  rw [sample_append, Nat.zero_add, htake, sample, if_pos (sub_mod_mod m stride), hq]

theorem stretch_take (stride : ℕ) {m : ℕ} {rs : List (RunKey × List UInt8)} (hm : m < rs.length) :
    ∃ sk, stretch stride m (rs.take (m + 1)) = sk ++ [rs[m]] ∧ (∀ r ∈ sk, r ∈ rs.take m) ∧
      (sk = [] ∨ ∃ m', m = m' + 1 ∧ sk = stretch stride m' (rs.take (m' + 1))) := by
  refine ⟨(rs.take m).drop (m - m % stride), ?_, fun r hr => List.mem_of_mem_drop hr, ?_⟩
  · rw [stretch, List.take_succ_eq_append_getElem hm, List.drop_append_of_le_length (by simp; omega)]
  · cases m with
    | zero => exact Or.inl (by simp)
    | succ m =>
      by_cases hz : (m + 1) % stride = 0
      · left
        rw [hz, Nat.sub_zero, List.drop_eq_nil_iff, List.length_take]
        omega
      · right
        refine ⟨m, rfl, ?_⟩
        rw [stretch]
        congr 1
        rcases Nat.eq_zero_or_pos stride with rfl | hs
        · simp
        have hlt := Nat.mod_lt m hs
        rcases Nat.lt_or_ge (m % stride + 1) stride with h | h
        · have : (m + 1) % stride = m % stride + 1 := by
            rw [← Nat.mod_add_mod, Nat.mod_eq_of_lt h]
          omega
        · have : (m + 1) % stride = 0 := by
            rw [← Nat.mod_add_mod, show m % stride + 1 = stride by omega, Nat.mod_self]
          exact absurd this hz

theorem before_of_sorted {key : RunKey} {body : List UInt8} {sk post pre : List (RunKey × List UInt8)}
    (h : ascending (pre ++ (key, body) :: post)) (hsub : ∀ r ∈ sk, r ∈ pre) : SortedRun.before key sk := by
  intro r hr
  exact (List.pairwise_append.mp h).2.2 r (hsub r hr) _ List.mem_cons_self

theorem length_le_records_bytes (rs : List (RunKey × List UInt8)) : rs.length ≤ records_bytes rs := by
  induction rs with
  | nil => exact Nat.zero_le _
  | cons r rs ih =>
    have hbytes : records_bytes (r :: rs) =
      40 + r.2.length + records_bytes rs := by simp [records_bytes, record_bytes]
    rw [List.length_cons, hbytes]
    omega

theorem split_at (key : RunKey) {rs : List (RunKey × List UInt8)} (h : ascending rs) :
    ∃ pre post, rs = pre ++ post ∧ (∀ r ∈ pre, r.1.toNat ≤ key.toNat) ∧ ∀ r ∈ post, key.toNat < r.1.toNat := by
  induction rs with
  | nil => exact ⟨[], [], rfl, by simp, by simp⟩
  | cons r rs ih =>
    obtain ⟨hr, h⟩ := List.pairwise_cons.mp h
    rcases Nat.lt_or_ge key.toNat r.1.toNat with hlt | hle
    · refine ⟨[], r :: rs, rfl, by simp, List.forall_mem_cons.mpr ⟨hlt, fun r' hr' => hlt.trans (hr r' hr')⟩⟩
    · obtain ⟨pre, post, rfl, hpre, hpost⟩ := ih h
      exact ⟨r :: pre, post, rfl, List.forall_mem_cons.mpr ⟨hle, hpre⟩, hpost⟩

theorem partition_point_split {key : RunKey} (pre : List (RunKey × List UInt8)) {post : List (RunKey × List UInt8)}
    (hpre : ∀ r ∈ pre, r.1.toNat ≤ key.toNat) (hpost : ∀ r ∈ post, key.toNat < r.1.toNat) :
    SortedRun.partition_point (sample stride 0 pos (pre ++ post)) key = (sample stride 0 pos pre).length := by
  rw [SortedRun.partition_point, sample_append, List.countP_append, List.countP_eq_length.mpr,
    List.countP_eq_zero.mpr,
    Nat.add_zero]
  · intro e he
    obtain ⟨⟨r, hr, hk⟩, -⟩ := mem_sample he
    have := hpost r hr
    rw [hk] at this
    simpa using this
  · intro e he
    obtain ⟨⟨r, hr, hk⟩, -⟩ := mem_sample he
    have := hpre r hr
    rw [hk] at this
    simpa using this

def file_of (stride : UInt32) (rs : List (RunKey × List UInt8)) : RunBuilder where
  written := records rs
  sparse := sample stride.toNat 0 HDR rs
  count := rs.length
  stride := stride
  pos := HDR + records_bytes rs
  last_key := rs.getLast?.map Prod.fst

def run_of (stride : UInt32) (rs : List (RunKey × List UInt8)) : SortedRun :=
  ⟨(file_of stride rs).finish, sample stride.toNat 0 HDR rs, rs.length, stride.toNat⟩

def tail_index (stride : UInt32) (rs : List (RunKey × List UInt8)) : List UInt8 :=
  RunBuilder.index (sample stride.toNat 0 HDR rs)

def limit (stride : UInt32) : ℕ := max (stride.toNat * 84) 84

theorem file_drop (stride : UInt32) (a b : List (RunKey × List UInt8)) :
    (run_of stride (a ++ b)).file.drop (HDR + records_bytes a) = records b ++ tail_index stride (a ++ b) := by
  have hsplit : (run_of stride (a ++ b)).file =
      ((file_of stride (a ++ b)).header ++ records a) ++ (records b ++ tail_index stride (a ++ b)) := by
    simp only [run_of, RunBuilder.finish, file_of, tail_index, records_append, List.append_assoc]
  rw [hsplit, List.drop_left' (by rw [List.length_append, length_header, length_records])]

section

variable [PublicKeys]

theorem scan_window_eq (run : SortedRun) (off_lo off_hi : ℕ) (key : RunKey) :
    run.scan_window off_lo off_hi key =
      SortedRun.look key ((run.file.drop off_lo).take (max (min (run.stride * 84) (off_hi - off_lo)) 84)) := by
  unfold SortedRun.scan_window
  dsimp only
  generalize max (min (run.stride * 84) (off_hi - off_lo)) 84 = cap
  have htake : (run.file.drop off_lo).take (min cap (run.file.length - off_lo)) =
    (run.file.drop off_lo).take cap := by
    rw [List.take_eq_take_iff, List.length_drop]
    omega
  split
  · rw [SortedRun.look_short]
    simp
    omega
  · rw [htake, SortedRun.scan_eq_look]
    simp

def read_records : ℕ → List UInt8 → List (RunKey × List UInt8)
  | 0, _ => []
  | fuel + 1, buf =>
    if buf.length < 40 then []
    else
      let len := value ((buf.drop 36).take 4)
      if buf.length < 40 + len then []
      else (read_key (buf.take 36), (buf.drop 40).take len) :: read_records fuel (buf.drop (40 + len))

variable {key : RunKey} {c : Coin} {stride : UInt32} {m : ℕ} {coins : List (OutPoint × Coin)}

theorem scan_eq_some {fuel : ℕ} {buf : List UInt8} :
    SortedRun.scan key fuel buf = some c ↔ ∃ pre body post, read_records fuel buf = pre ++ (key, body) :: post ∧
      SortedRun.before key pre ∧ decode_coin body = some c := by
  induction fuel generalizing buf with
  | zero => simp [SortedRun.scan, read_records]
  | succ fuel ih =>
    rw [SortedRun.scan, read_records]
    dsimp only
    split
    · simp
    split
    · simp
    generalize read_key (buf.take 36) = k
    generalize (buf.drop 40).take (value ((buf.drop 36).take 4)) = body
    split
    · rename_i hk
      subst hk
      constructor
      · exact fun h => ⟨[], body, _, rfl, by simp [SortedRun.before], h⟩
      · rintro ⟨pre, body', post, hread, hbefore, hd⟩
        cases pre with
        | nil =>
          cases hread
          exact hd
        | cons r pre =>
          obtain ⟨rfl, -⟩ := List.cons.inj hread
          exact absurd (hbefore _ List.mem_cons_self) (by dsimp only; omega)
    · rename_i hk
      split
      · rename_i hlt
        simp only [reduceCtorEq, false_iff, not_exists, not_and]
        intro pre body' post hread hbefore
        cases pre with
        | nil =>
          cases hread
          exact absurd rfl hk
        | cons r pre =>
          obtain ⟨rfl, -⟩ := List.cons.inj hread
          exact absurd (hbefore _ List.mem_cons_self) (by dsimp only; omega)
      · rename_i hle
        have hlt : k.toNat < key.toNat := by
          have : k.toNat ≠ key.toNat := fun h => hk (BitVec.eq_of_toNat_eq h)
          omega
        rw [ih]
        constructor
        · rintro ⟨pre, body', post, hread, hbefore, hd⟩
          exact ⟨(k, body) :: pre, body', post, by rw [hread]; rfl, List.forall_mem_cons.mpr ⟨hlt, hbefore⟩, hd⟩
        · rintro ⟨pre, body', post, hread, hbefore, hd⟩
          cases pre with
          | nil =>
            cases hread
            omega
          | cons r pre =>
            obtain ⟨rfl, htail⟩ := List.cons.inj hread
            exact ⟨pre, body', post, htail, fun r' hr' => hbefore r' (List.mem_cons_of_mem _ hr'), hd⟩

theorem get_key_below {rs : List (RunKey × List UInt8)} (h : ∀ r ∈ rs, key.toNat < r.1.toNat) :
    (run_of stride rs).get_key key = none := by
  have hzero : SortedRun.partition_point (run_of stride rs).sparse key = 0 :=
    partition_point_split [] (by simp) h
  rw [SortedRun.get_key, hzero]

theorem get_key_eq {stride : UInt32} {key : RunKey} {pre post : List (RunKey × List UInt8)} {m : ℕ}
    (hpre : ∀ r ∈ pre, r.1.toNat ≤ key.toNat) (hpost : ∀ r ∈ post, key.toNat < r.1.toNat)
    (hm : pre.length = m + 1) (hfit : HDR + records_bytes (pre ++ post) < 2 ^ 63) :
    ∃ cap, cap ≤ limit stride ∧ min (records_bytes (stretch stride.toNat m pre)) (limit stride) ≤ cap ∧
      (post = [] → cap = limit stride) ∧
      (run_of stride (pre ++ post)).get_key key = SortedRun.look key
        ((records (stretch stride.toNat m pre) ++ (records post ++ tail_index stride (pre ++ post))).take cap) := by
  obtain ⟨r, q, earlier, hstretch, -, hsample⟩ := sample_last hm HDR
  have hstart : pre = pre.take (m - m % stride.toNat) ++ stretch stride.toNat m pre :=
    (List.take_append_drop _ _).symm
  set start := pre.take (m - m % stride.toNat) with hstart'
  have hbytes : records_bytes pre = records_bytes start + records_bytes (stretch stride.toNat m pre) := by
    conv_lhs => rw [hstart]
    rw [records_bytes_append]
  have hsparse : (run_of stride (pre ++ post)).sparse =
      earlier ++ (r.1, HDR + records_bytes start) :: sample stride.toNat pre.length
        (HDR + records_bytes pre) post := by
    rw [run_of, sample_append, hsample, Nat.zero_add, List.append_assoc, List.singleton_append]
  have hpoint : SortedRun.partition_point (run_of stride (pre ++ post)).sparse key = earlier.length + 1 := by
    rw [run_of, partition_point_split _ hpre hpost, hsample, List.length_append, List.length_singleton]
  have hfile : (run_of stride (pre ++ post)).file.drop (HDR + records_bytes start) =
      records (stretch stride.toNat m pre) ++ (records post ++ tail_index stride (pre ++ post)) := by
    have h := file_drop stride start (stretch stride.toNat m pre ++ post)
    rw [← List.append_assoc, ← hstart, records_append, List.append_assoc] at h
    exact h
  have hword := stride.toNat_lt
  rw [records_bytes_append] at hfit
  have hlo : (run_of stride (pre ++ post)).sparse[earlier.length]? = some (r.1, HDR + records_bytes start) := by
    rw [hsparse, List.getElem?_append_right (le_refl _), Nat.sub_self, List.getElem?_cons_zero]
  have hhi : (run_of stride (pre ++ post)).sparse[earlier.length + 1]? =
      (sample stride.toNat pre.length (HDR + records_bytes pre) post)[0]? := by
    rw [hsparse, List.getElem?_append_right (by omega), Nat.add_sub_cancel_left, List.getElem?_cons_succ]
  rw [SortedRun.get_key, hpoint]
  dsimp only
  rw [hlo, hhi]
  have hstride : (run_of stride (pre ++ post)).stride = stride.toNat := rfl
  cases hnext : (sample stride.toNat pre.length (HDR + records_bytes pre) post)[0]? with
  | none =>
    refine ⟨limit stride, le_refl _, min_le_right _ _, fun _ => rfl, ?_⟩
    dsimp only
    rw [scan_window_eq, hfile, hstride, min_eq_left (by unfold U64_MAX; omega)]
    rfl
  | some e =>
    obtain ⟨-, hge, hle⟩ := mem_sample (List.mem_of_getElem? hnext)
    refine ⟨max (min (stride.toNat * 84) (e.2 - (HDR + records_bytes start))) 84, ?_, ?_, ?_, ?_⟩
    · unfold limit
      omega
    · unfold limit
      omega
    · rintro rfl
      simp [sample] at hnext
    · dsimp only
      rw [scan_window_eq, hfile, hstride]

def stored (coins : List (OutPoint × Coin)) : List (RunKey × List UInt8) :=
  coins.map fun r => (outpoint_key r.1, encode_coin r.2)

def pushed (coins : List (OutPoint × Coin)) (key : RunKey) : Option Coin :=
  (coins.find? fun r => outpoint_key r.1 == key).map Prod.snd

/-- What the reader needs of the coins: its integers hold their fields and lengths, no record ends beyond the read
window that starts at the sampled record before it, and the index bytes the last window runs into, walked as
records, show no coin under a key above those before it. -/
structure Fits (stride : UInt32) (coins : List (OutPoint × Coin)) : Prop where
  storable : ∀ r ∈ coins, Storable r.2
  short : SortedRun.Short (stored coins)
  windowed : ∀ m < coins.length, records_bytes (stretch stride.toNat m ((stored coins).take (m + 1))) ≤ limit stride
  no_phantom : ∀ m key pre body post, coins.length = m + 1 → SortedRun.before key (stored coins) →
    let window := (tail_index stride (stored coins)).take
      (limit stride - records_bytes (stretch stride.toNat m (stored coins)))
    read_records window.length window = pre ++ (key, body) :: post → SortedRun.before key pre →
      decode_coin body = none

structure FitsFor (asked : RunKey → Prop) (stride : UInt32) (coins : List (OutPoint × Coin)) : Prop where
  storable : ∀ r ∈ coins, Storable r.2
  short : SortedRun.Short (stored coins)
  windowed : ∀ m < coins.length, records_bytes (stretch stride.toNat m ((stored coins).take (m + 1))) ≤ limit stride
  no_phantom : ∀ m key pre body post, asked key → coins.length = m + 1 → SortedRun.before key (stored coins) →
    let window := (tail_index stride (stored coins)).take
      (limit stride - records_bytes (stretch stride.toNat m (stored coins)))
    read_records window.length window = pre ++ (key, body) :: post → SortedRun.before key pre →
      decode_coin body = none

theorem fits_for_all : FitsFor (fun _ => True) stride coins ↔ Fits stride coins :=
  ⟨fun h => ⟨h.storable, h.short, h.windowed, fun m key pre body post => h.no_phantom m key pre body post trivial⟩,
    fun h => ⟨h.storable, h.short, h.windowed, fun m key pre body post _ => h.no_phantom m key pre body post⟩⟩

theorem length_stored (coins : List (OutPoint × Coin)) : (stored coins).length = coins.length := List.length_map _

theorem pushed_of_mem (hasc : ascending (stored coins)) {op : OutPoint} (h : (op, c) ∈ coins) :
    pushed coins (outpoint_key op) = some c := by
  induction coins with
  | nil => cases h
  | cons r coins ih =>
    obtain ⟨hr, hasc⟩ := List.pairwise_cons.mp hasc
    rcases List.mem_cons.mp h with rfl | h
    · simp [pushed]
    have hlt := hr _ (List.mem_map_of_mem h)
    dsimp only at hlt
    have hne : outpoint_key r.1 ≠ outpoint_key op := fun he => by rw [he] at hlt; omega
    have := ih hasc h
    simpa [pushed, List.find?_cons_of_neg, hne] using this

theorem pushed_none (h : ∀ r ∈ stored coins, r.1 ≠ key) : pushed coins key = none := by
  rw [pushed, Option.map_eq_none_iff, List.find?_eq_none]
  intro r hr
  simpa using h _ (List.mem_map_of_mem hr)

theorem decode_encode (hv : money_range c.out.value = true) (hs : Storable c) :
    decode_coin (encode_coin c) = some c := by
  have h := decode_encode_coin hv hs []
  rw [List.append_nil] at h
  rw [decode_coin, h]
  rfl

theorem decode_prefix (hv : money_range c.out.value = true) (hs : Storable c) (hm : m < (encode_coin c).length) :
    decode_coin ((encode_coin c).take m) ≠ some c := by
  intro h
  rw [decode_coin, Option.map_eq_some_iff] at h
  obtain ⟨⟨c', rest⟩, hd, rfl⟩ := h
  have hall := decode_coin_compact_local hd ((encode_coin c').drop m)
  have hfull := decode_encode_coin hv hs []
  rw [List.take_append_drop] at hall
  rw [List.append_nil, hall] at hfull
  have hdrop : (encode_coin c').drop m = [] :=
    (List.append_eq_nil_iff.mp (congrArg Prod.snd (Option.some.inj hfull))).2
  have hlen := congrArg List.length hdrop
  rw [List.length_drop, List.length_nil] at hlen
  dsimp only at hm
  omega

theorem get_key_at {rs : List (RunKey × List UInt8)} (hasc : ascending rs) (hfit : HDR + records_bytes rs < 2 ^ 63)
    (hm : m < rs.length) {sk : List (RunKey × List UInt8)}
    (hsk : stretch stride.toNat m (rs.take (m + 1)) = sk ++ [rs[m]]) (hmem : ∀ r ∈ sk, r ∈ rs.take m)
    (hshort : SortedRun.Short sk) (hbytes : records_bytes sk ≤ limit stride) :
    ∃ cap tail, cap ≤ limit stride ∧ min (records_bytes (sk ++ [rs[m]])) (limit stride) ≤ cap ∧
      (run_of stride rs).get_key rs[m].1 =
        SortedRun.look rs[m].1 ((record rs[m].1 rs[m].2 ++ tail).take (cap - records_bytes sk)) := by
  have hsplit : rs.take m ++ rs[m] :: rs.drop (m + 1) = rs := by
    rw [List.getElem_cons_drop, List.take_append_drop]
  have hsorted : ascending (rs.take m ++ rs[m] :: rs.drop (m + 1)) := hsplit.symm ▸ hasc
  have hpair := List.pairwise_append.mp hsorted
  have hbefore : SortedRun.before rs[m].1 sk := before_of_sorted hsorted hmem
  have hpre : ∀ r ∈ rs.take (m + 1), r.1.toNat ≤ rs[m].1.toNat := by
    intro r hr
    rw [List.take_succ_eq_append_getElem hm, List.mem_append, List.mem_singleton] at hr
    rcases hr with hr | rfl
    · exact (hpair.2.2 r hr _ List.mem_cons_self).le
    · exact le_refl _
  have hpost : ∀ r ∈ rs.drop (m + 1), rs[m].1.toNat < r.1.toNat := (List.pairwise_cons.mp hpair.2.1).1
  have hlen : (rs.take (m + 1)).length = m + 1 := by rw [List.length_take]; omega
  obtain ⟨cap, hle, hmin, -, hget⟩ := @get_key_eq _ stride _ _ _ m hpre hpost hlen
    (by rw [List.take_append_drop]; exact hfit)
  rw [List.take_append_drop, hsk] at hget
  rw [hsk] at hmin
  have hall : records_bytes (sk ++ [rs[m]]) = records_bytes sk + record_bytes rs[m] := by
    rw [records_bytes_append]
    simp [records_bytes]
  have hlast : records [rs[m]] = record rs[m].1 rs[m].2 := by simp [records]
  refine ⟨cap, records (rs.drop (m + 1)) ++ tail_index stride rs, hle, hmin, ?_⟩
  rw [hget, records_append, List.append_assoc, SortedRun.look_skip hshort hbefore (by omega), hlast]

variable {asked : RunKey → Prop}

theorem run_exact_of_fits (hasc : ascending (stored coins)) (hv : ∀ r ∈ coins, money_range r.2.out.value = true)
    (hfit : HDR + records_bytes (stored coins) < 2 ^ 63) (h : FitsFor asked stride coins) (key : RunKey)
    (hasked : asked key) : (run_of stride (stored coins)).get_key key
    = pushed coins key := by
  obtain ⟨pre, post, hsplit, hpre, hpost⟩ := split_at key hasc
  rcases List.eq_nil_or_concat pre with rfl | ⟨init, last, hinit⟩
  · have hall : ∀ r ∈ stored coins, key.toNat < r.1.toNat := by simpa [hsplit] using hpost
    rw [get_key_below hall, pushed_none]
    intro r hr he
    have := hall r hr
    rw [he] at this
    omega
  rw [List.concat_eq_append] at hinit
  have hlen : pre.length = init.length + 1 := by rw [hinit, List.length_append, List.length_singleton]
  have hm : init.length < (stored coins).length := by rw [hsplit, List.length_append]; omega
  have htake : (stored coins).take (init.length + 1) = pre := by rw [hsplit, List.take_left' hlen]
  have hget : (stored coins)[init.length] = last := by
    simp only [hsplit, hinit, List.append_assoc, List.singleton_append]
    rw [List.getElem_append_right (le_refl _)]
    simp
  have hwindow := h.windowed init.length (by rwa [length_stored] at hm)
  rw [htake] at hwindow
  by_cases hkey : last.1 = key
  · -- the key is the last record of the stretch
    obtain ⟨sk, hsk, hmem, -⟩ := stretch_take stride.toNat hm
    have hsub : ∀ r ∈ sk, r ∈ stored coins := fun r hr => List.mem_of_mem_take (hmem r hr)
    have hall : records_bytes (sk ++ [last]) = records_bytes sk + (40 + last.2.length) := by
      rw [records_bytes_append]
      simp [records_bytes, record_bytes]
    rw [hget] at hsk
    rw [← htake, hsk, hall] at hwindow
    obtain ⟨cap, tail, -, hmin, hlook⟩ := get_key_at hasc hfit hm (hget ▸ hsk) hmem
      (fun r hr => h.short r (hsub r hr)) (by omega)
    rw [hget] at hmin hlook
    rw [hall] at hmin
    obtain ⟨⟨op, c⟩, hc, hlast⟩ := List.mem_map.mp (hget ▸ List.getElem_mem hm)
    rw [hkey] at hlook
    rw [hlook, SortedRun.look_hit (h.short last (hget ▸ List.getElem_mem hm)) (by omega), ← hkey, ← hlast,
      decode_encode (hv _ hc) (h.storable _ hc), pushed_of_mem hasc hc]
  · -- the key lies above the stretch and below what follows
    have hsorted : ascending (init ++ last :: post) := by
      rw [hsplit, hinit, List.append_assoc] at hasc
      exact hasc
    have hlast : last.1.toNat < key.toNat := by
      have hne : last.1.toNat ≠ key.toNat := fun he => hkey (BitVec.eq_of_toNat_eq he)
      have hle := hpre last (by rw [hinit]; exact List.mem_append_right _ List.mem_cons_self)
      omega
    have hbefore : SortedRun.before key pre := by
      intro r hr
      rw [hinit, List.mem_append, List.mem_singleton] at hr
      rcases hr with hr | rfl
      · exact ((List.pairwise_append.mp hsorted).2.2 r hr _ List.mem_cons_self).trans hlast
      · exact hlast
    have hsub : ∀ r ∈ stretch stride.toNat init.length pre, r ∈ pre := fun r hr => List.mem_of_mem_drop hr
    have hmem : ∀ r ∈ pre, r ∈ stored coins := fun r hr => by rw [hsplit]; exact List.mem_append_left _ hr
    obtain ⟨cap, -, hmin, hcap, hlook⟩ := @get_key_eq _ stride key pre post _ hpre hpost hlen (hsplit ▸ hfit)
    rw [hsplit, hlook, SortedRun.look_skip (fun r hr => h.short r (hmem r (hsub r hr)))
      (fun r hr => hbefore r (hsub r hr))
      (by omega), pushed_none]
    · cases post with
      | cons r post =>
        have hr := hpost r List.mem_cons_self
        have hhead : records (r :: post) = record r.1 r.2 ++ records post := by simp [records]
        rw [hhead, List.append_assoc, SortedRun.look_past hr]
      | nil =>
        rw [List.append_nil] at hsplit
        rw [hcap rfl, List.append_nil, ← hsplit, records, List.flatMap_nil, List.nil_append]
        rw [← hsplit] at hbefore hlen
        by_contra hfound
        obtain ⟨c, hc⟩ := Option.ne_none_iff_exists'.mp hfound
        obtain ⟨before, body, after, hread, hfresh, hd⟩ := scan_eq_some.mp hc
        rw [h.no_phantom init.length key before body after hasked
          (by rwa [length_stored] at hlen) hbefore hread hfresh] at hd
        cases hd
    · intro r hr he
      rw [hsplit, List.mem_append] at hr
      rcases hr with hr | hr
      · exact absurd (hbefore r hr) (by rw [he]; omega)
      · exact absurd (hpost r hr) (by rw [he]; omega)

theorem storable_of_get_key {run : SortedRun} (h : run.get_key key = some c) : Storable c := by
  have hlook : ∃ buf, SortedRun.look key buf = some c := by
    unfold SortedRun.get_key at h
    split at h
    · cases h
    split at h
    · cases h
    split at h
    all_goals
      rw [scan_window_eq] at h
      exact ⟨_, h⟩
  obtain ⟨buf, hbuf⟩ := hlook
  obtain ⟨body, hd⟩ := SortedRun.decode_of_look hbuf
  rw [decode_coin, Option.map_eq_some_iff] at hd
  obtain ⟨⟨c, rest⟩, hd, rfl⟩ := hd
  exact storable_of_decode hd

theorem fits_of_run_exact (hasc : ascending (stored coins)) (hv : ∀ r ∈ coins, money_range r.2.out.value = true)
    (hfit : HDR + records_bytes (stored coins) < 2 ^ 63) (hasked : ∀ r ∈ coins, asked (outpoint_key r.1))
    (h : ∀ key, asked key → (run_of stride (stored coins)).get_key key = pushed coins key) :
    FitsFor asked stride coins := by
  have hstorable : ∀ r ∈ coins, Storable r.2 := fun r hr =>
    storable_of_get_key ((h (outpoint_key r.1) (hasked r hr)).trans (pushed_of_mem hasc hr))
  -- record by record: what is before it in its window is readable by induction
  have hreads : ∀ m, ∀ hm : m < (stored coins).length, (stored coins)[m].2.length < 2 ^ 32 ∧
      records_bytes (stretch stride.toNat m ((stored coins).take (m + 1))) ≤ limit stride := by
    intro m
    induction m using Nat.strong_induction_on with
    | _ m ih =>
      intro hm
      obtain ⟨sk, hsk, hmem, hprev⟩ := stretch_take stride.toNat hm
      have hshort : SortedRun.Short sk := by
        intro r hr
        obtain ⟨i, hi, rfl⟩ := List.mem_take_iff_getElem.mp (hmem r hr)
        exact (ih i (by omega) (by omega)).1
      have hbytes : records_bytes sk ≤ limit stride := by
        rcases hprev with rfl | ⟨m', rfl, rfl⟩
        · exact Nat.zero_le _
        · exact (ih m' (by omega) (by omega)).2
      obtain ⟨cap, tail, hcap, hmin, hlook⟩ := get_key_at hasc hfit hm hsk hmem hshort hbytes
      obtain ⟨⟨op, c⟩, hc, hrec⟩ := List.mem_map.mp (List.getElem_mem hm)
      rw [← hrec] at hlook hmin ⊢
      rw [h _ (hasked _ hc), pushed_of_mem hasc hc] at hlook
      have hlong : (encode_coin c).length < 2 ^ 32 := by
        by_contra hge
        obtain ⟨n, hn, hd⟩ := SortedRun.look_long (Nat.not_lt.mp hge) hlook.symm
        exact decode_prefix (hv _ hc) (hstorable _ hc) hn hd
      refine ⟨hlong, ?_⟩
      have hall : records_bytes (sk ++ [(outpoint_key op, encode_coin c)]) =
          records_bytes sk + (40 + (encode_coin c).length) := by
        rw [records_bytes_append]
        simp [records_bytes, record_bytes]
      rw [hsk, ← hrec, hall]
      by_contra hge
      rw [SortedRun.look_cut hlong (by omega)] at hlook
      cases hlook
  have hshort : SortedRun.Short (stored coins) := by
    intro r hr
    obtain ⟨i, hi, rfl⟩ := List.mem_iff_getElem.mp hr
    exact (hreads i hi).1
  refine ⟨hstorable, hshort, fun m hm => (hreads m (by rwa [length_stored])).2, ?_⟩
  intro m key before body after hkey hlen hbefore window hread hfresh
  -- the index bytes are read only for keys above every record
  have hlen' : (stored coins).length = m + 1 := by rw [length_stored, hlen]
  have hbytes := (hreads m (by omega)).2
  rw [List.take_of_length_le (by omega)] at hbytes
  obtain ⟨cap, -, hmin, hcap, hlook⟩ := @get_key_eq _ stride key (stored coins) [] m (fun r hr => (hbefore r hr).le)
    (by simp) hlen' (by rwa [List.append_nil])
  have hsub : ∀ r ∈ stretch stride.toNat m (stored coins), r ∈ stored coins := fun r hr => List.mem_of_mem_drop hr
  rw [List.append_nil, h key hkey, pushed_none, SortedRun.look_skip (fun r hr => hshort r (hsub r hr))
    (fun r hr => hbefore r (hsub r hr)) (by omega), hcap rfl, records, List.flatMap_nil, List.nil_append] at hlook
  · by_contra hd
    obtain ⟨c, hc⟩ := Option.ne_none_iff_exists'.mp hd
    have hfound := scan_eq_some.mpr ⟨before, body, after, hread, hfresh, hc⟩
    exact absurd (hlook.trans hfound) (by simp)
  · intro r hr he
    exact absurd (hbefore r hr) (by rw [he]; omega)

def build (stride : UInt32) (coins : List (OutPoint × Coin)) : Except IoError (List UInt8) :=
  (coins.foldlM (fun b r => RunBuilder.push b r.1 r.2) (create_with_stride stride)).map RunBuilder.finish

theorem foldlM_push (b : RunBuilder) (coins : List (OutPoint × Coin)) :
    coins.foldlM (fun b r => RunBuilder.push b r.1 r.2) b = push_all b (stored coins) := by
  induction coins generalizing b with
  | nil => rfl
  | cons r coins ih =>
    rw [List.foldlM_cons, stored, List.map_cons, push_all]
    change (b.push_wire (outpoint_key r.1) (encode_coin r.2) >>= _) = _
    cases b.push_wire (outpoint_key r.1) (encode_coin r.2) with
    | error e => rfl
    | ok b => exact ih b

omit [PublicKeys] in
theorem push_all_file {rs : List (RunKey × List UInt8)} (hasc : ascending rs) :
    ∃ b, push_all (create_with_stride stride) rs = .ok b ∧ b.finish = (file_of stride rs).finish := by
  obtain ⟨last_key, hpush⟩ := @push_all_eq (create_with_stride stride) rs hasc (by simp [create_with_stride])
  refine ⟨_, hpush, ?_⟩
  simp [create_with_stride, file_of, RunBuilder.finish, RunBuilder.header]

omit [PublicKeys] in
theorem open_file {rs : List (RunKey × List UInt8)} (hfit : HDR + records_bytes rs < 2 ^ 63) :
    SortedRun.open_ (file_of stride rs).finish = .ok (run_of stride rs) := by
  apply open_finish
  · have hcount := length_le_records_bytes rs
    simp only [file_of]
    omega
  · simp [file_of, length_records]
  · simp only [file_of]
    omega
  · intro e he
    have := (mem_sample he).2.2
    omega

theorem build_open (hasc : ascending (stored coins)) (hfit : HDR + records_bytes (stored coins) < 2 ^ 63) :
    ∃ file, build stride coins = .ok file ∧ SortedRun.open_ file = .ok (run_of stride (stored coins)) := by
  obtain ⟨b, hpush, hfile⟩ := @push_all_file stride _ hasc
  refine ⟨b.finish, ?_, hfile ▸ open_file hfit⟩
  rw [build, foldlM_push, hpush]
  rfl

theorem get_key_exact_iff (stride : UInt32) (coins : List (OutPoint × Coin)) (hasc : ascending (stored coins))
    (hv : ∀ r ∈ coins, money_range r.2.out.value = true) (hfit : HDR + records_bytes (stored coins) < 2 ^ 63) :
    ∃ file run, build stride coins = .ok file ∧ SortedRun.open_ file = .ok run ∧
      ((∀ key, run.get_key key = pushed coins key) ↔ Fits stride coins) := by
  obtain ⟨file, hbuild, hopen⟩ := @build_open _ stride coins hasc hfit
  refine ⟨file, _, hbuild, hopen, fun h => ?_, fun h key => ?_⟩
  · exact fits_for_all.mp (fits_of_run_exact hasc hv hfit (fun _ _ => trivial) fun key _ => h key)
  · exact run_exact_of_fits hasc hv hfit (fits_for_all.mpr h) key trivial

end

section

@[reducible] def PublicKeys.none : PublicKeys where
  is_point _ := false
  from_x_only _ _ := Option.none
  length_from_x_only := PublicKeys.length_of_none
  from_x_only_of_point := PublicKeys.none_of_point

attribute [local instance] PublicKeys.none

def short_coin : OutPoint × Coin := (⟨1, 0⟩, ⟨⟨5, [0x51]⟩, 1, false⟩)

theorem get_key_exact_short : ∃ file run, build 1 [short_coin] = .ok file ∧ SortedRun.open_ file = .ok run ∧
    ∀ key, run.get_key key = pushed [short_coin] key := by
  obtain ⟨file, run, hbuild, hopen, hiff⟩ := get_key_exact_iff 1 [short_coin] (by simp [ascending, stored])
    (by decide) (by decide)
  refine ⟨file, run, hbuild, hopen, hiff.mpr ⟨?_, ?_, ?_, ?_⟩⟩
  · rintro r hr
    rw [List.mem_singleton.mp hr]
    exact ⟨by decide, by decide⟩
  · rintro r hr
    rw [List.mem_singleton.mp hr]
    decide
  · rintro m hm
    obtain rfl : m = 0 := by simpa using hm
    decide
  · rintro m key pre body post hm - window hread -
    obtain rfl : m = 0 := by simpa using hm.symm
    have hempty : read_records window.length window = [] := by decide
    rw [hempty] at hread
    simp at hread

def long_script_coin : OutPoint × Coin := (⟨1, 0⟩, ⟨⟨5, List.replicate 42 0x51⟩, 1, false⟩)

/-- Five records under stride 2: the last window runs into the index, whose bytes from 72 on read as a record. -/
def phantom_coins : List (OutPoint × Coin) :=
  [1 <<< 248, 2 <<< 248, 3 <<< 248 + 0xff <<< 24, 4 <<< 248,
    5 <<< 248 + 3 <<< 88 + 2 <<< 56 + 9 <<< 48 + 6 <<< 40].map
    fun txid => (⟨BitVec.ofNat 256 txid, 0⟩, ⟨⟨5, []⟩, 1, false⟩)

def phantom_key : RunKey := BitVec.ofNat 288 (0xff <<< 280 + 118 <<< 216 + 5 <<< 152)

theorem get_key_misses :
    (∃ file run, build 1 [long_script_coin] = .ok file ∧ SortedRun.open_ file = .ok run ∧
      run.get_key (outpoint_key long_script_coin.1) = none ∧
      pushed [long_script_coin] (outpoint_key long_script_coin.1) = some long_script_coin.2) ∧
    ∃ file run, build 2 phantom_coins = .ok file ∧ SortedRun.open_ file = .ok run ∧
      run.get_key phantom_key ≠ none ∧ pushed phantom_coins phantom_key = none := by
  obtain ⟨file, hbuild, hopen⟩ := @build_open _ 1 [long_script_coin] (by simp [ascending, stored]) (by decide)
  obtain ⟨file', hbuild', hopen'⟩ := @build_open _ 2 phantom_coins (by unfold ascending; decide)
    (by decide)
  exact ⟨⟨file, _, hbuild, hopen, by decide +kernel, by decide +kernel⟩,
    ⟨file', _, hbuild', hopen', by decide +kernel, by decide +kernel⟩⟩

end

end RunFile

end AvilaNode
