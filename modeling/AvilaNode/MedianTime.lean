import AvilaNode.AncestorWalk
import AvilaNode.Connect
import AvilaNode.OrderStatistic

/-! Median time past never goes back along a branch, so locks by time that are met stay met. -/

namespace AvilaNode

open OrderStatistic

variable {times : List ℕ}

theorem le_median_time_past (hne : times ≠ []) {m : ℕ} :
    m ≤ median_time_past times ↔
      (times.take MEDIAN_TIME_SPAN).length ≤ (times.take MEDIAN_TIME_SPAN).length / 2
        + countFrom m (times.take MEDIAN_TIME_SPAN) := by
  have hpos : 0 < (times.take MEDIAN_TIME_SPAN).length := by
    have := List.length_pos_of_ne_nil hne
    rw [List.length_take, MEDIAN_TIME_SPAN]
    omega
  unfold median_time_past
  dsimp only
  rw [List.length_insertionSort, le_getD_insertionSort (by omega)]

theorem median_time_past_take (times : List ℕ) :
    median_time_past (times.take MEDIAN_TIME_SPAN) = median_time_past times := by
  simp only [median_time_past, List.take_take, min_self]

/-- A time over the median of the window before it cannot lower the median: it takes the place of at most one
time, and the upper middle moves by at most one. -/
theorem median_time_past_cons (hne : times ≠ []) {time : ℕ} (h : median_time_past times < time) :
    median_time_past times ≤ median_time_past (time :: times) := by
  have hold := (le_median_time_past hne).mp (le_refl (median_time_past times))
  rw [le_median_time_past (by simp)]
  have hcons : (time :: times).take MEDIAN_TIME_SPAN = time :: times.take (MEDIAN_TIME_SPAN - 1) := rfl
  have htake : times.take (MEDIAN_TIME_SPAN - 1) = (times.take MEDIAN_TIME_SPAN).take (MEDIAN_TIME_SPAN - 1) := by
    rw [List.take_take]
    rfl
  have hdrop := countFrom_take (median_time_past times) (times.take MEDIAN_TIME_SPAN) (MEDIAN_TIME_SPAN - 1)
  rw [hcons, countFrom_cons, if_pos h.le, List.length_cons, htake]
  simp only [List.length_take, MEDIAN_TIME_SPAN] at hold hdrop ⊢
  omega

def times_from (link : BlockHash → Option HeaderLink) : ℕ → BlockHeader → List ℕ
  | 0, _ => []
  | slots + 1, header =>
    header.time :: match link header.prev_block_hash with
      | some l => times_from link slots l.header
      | none => []

theorem times_from_take (link : BlockHash → Option HeaderLink) (slots : ℕ) (header : BlockHeader) :
    (times_from link (slots + 1) header).take slots = times_from link slots header := by
  induction slots generalizing header with
  | zero => rfl
  | succ slots ih =>
    rw [times_from, times_from, List.take_succ_cons]
    congr 1
    cases link header.prev_block_hash with
    | none => exact List.take_nil
    | some l => exact ih l.header

namespace HeaderTree

theorem collect_times_eq (t : HeaderTree) (slots : ℕ) (node : HeaderNode) :
    t.collect_times slots node = times_from t.link slots node.header := by
  induction slots generalizing node with
  | zero => rfl
  | succ slots ih =>
    rw [collect_times, times_from, link]
    cases t.get node.header.prev_block_hash with
    | none => rfl
    | some parent => exact congrArg _ (ih parent)

def past_median (t : HeaderTree) (header : BlockHeader) : ℕ :=
  AvilaNode.median_time_past (times_from t.link MEDIAN_TIME_SPAN header)

variable {hash : BlockHash}

theorem median_time_past_eq {t : HeaderTree} {node : HeaderNode} (hn : t.get hash = some node) :
    t.median_time_past hash = some (t.past_median node.header) := by
  rw [median_time_past, hn, Option.map_some, ancestor_times, collect_times_eq, past_median]

def Timed (t : HeaderTree) : Prop :=
  ∀ {hash l}, t.link hash = some l → l.height ≠ 0 →
    ∃ p, t.link l.header.prev_block_hash = some p ∧ t.past_median p.header < l.header.time

section

variable [Platform]

variable {t : HeaderTree}

theorem times_from_with_node (hl : t.Linked) {header : BlockHeader} {parent : HeaderNode} {chainwork : ℕ}
    (ha : t.Accepts header parent chainwork) (hroot : (t.with_node header parent chainwork).Rooted) {l : HeaderLink}
    (hlink : t.link hash = some l) (slots : ℕ) :
    times_from (t.with_node header parent chainwork).link slots l.header = times_from t.link slots l.header := by
  induction slots generalizing hash l with
  | zero => rfl
  | succ slots ih =>
    rw [times_from, times_from]
    congr 1
    by_cases h0 : l.height = 0
    · obtain ⟨lg, hlg, hheader, -, -⟩ := hl.genesis
      rw [← hl.root hlink h0, hlink] at hlg
      cases hlg
      have hnew : (t.with_node header parent chainwork).link l.header.prev_block_hash = none := by
        rw [link, hheader]
        exact congrArg _ hroot
      have hold : t.link l.header.prev_block_hash = none := by
        rw [link, hheader]
        exact congrArg _ (hroot.of_with_node ha)
      rw [hnew, hold]
    · obtain ⟨p, hp, -⟩ := hl.linked hlink h0
      rw [ha.link_old hp, hp]
      exact ih hp

theorem Reachable.timed {params : Params} (h : Reachable params t) : t.Linked ∧ (t.Rooted → t.Timed) := by
  refine h.links (P := fun t => t.Linked ∧ (t.Rooted → t.Timed)) ⟨Linked.new params, ?_⟩ ?_ ?_
  · intro _ hash l hlink h0
    rw [link_new] at hlink
    split at hlink <;> cases hlink
    exact absurd rfl h0
  · rintro t t' hs ⟨hl, ht⟩
    refine ⟨hl.congr hs, ?_⟩
    intro hroot hash l hlink h0
    rw [hs.link] at hlink
    obtain ⟨p, hp, htime⟩ := ht (hroot.of_same hs) hlink h0
    have hfun : t'.link = t.link := funext hs.link
    refine ⟨p, by rw [hs.link, hp], ?_⟩
    rw [past_median, hfun]
    exact htime
  · rintro t header parent chainwork ha ⟨hl, ht⟩
    refine ⟨hl.with_node ha, ?_⟩
    intro hroot hash l hlink h0
    rw [link_with_node] at hlink
    split at hlink
    · cases hlink
      refine ⟨parent.link, ha.link_old ha.link_parent, ?_⟩
      rw [past_median, times_from_with_node hl ha hroot ha.link_parent]
      have htime := ha.time
      rwa [ancestor_times, collect_times_eq] at htime
    · obtain ⟨p, hp, htime⟩ := ht (hroot.of_with_node ha) hlink h0
      refine ⟨p, ha.link_old hp, ?_⟩
      rw [past_median, times_from_with_node hl ha hroot hp]
      exact htime

omit [Platform] in
theorem past_median_le (ht : t.Timed) {l : HeaderLink} (hlink : t.link hash = some l) (h0 : l.height ≠ 0) :
    ∃ p, t.link l.header.prev_block_hash = some p ∧ t.past_median p.header ≤ t.past_median l.header := by
  obtain ⟨p, hp, htime⟩ := ht hlink h0
  refine ⟨p, hp, ?_⟩
  have hstep : times_from t.link MEDIAN_TIME_SPAN l.header
      = (l.header.time :: times_from t.link MEDIAN_TIME_SPAN p.header).take MEDIAN_TIME_SPAN := by
    change l.header.time :: (match t.link l.header.prev_block_hash with
        | some l => times_from t.link (MEDIAN_TIME_SPAN - 1) l.header
        | none => []) = l.header.time :: (times_from t.link MEDIAN_TIME_SPAN p.header).take (MEDIAN_TIME_SPAN - 1)
    rw [hp]
    exact congrArg _ (times_from_take t.link (MEDIAN_TIME_SPAN - 1) p.header).symm
  rw [past_median, past_median, hstep, median_time_past_take]
  apply median_time_past_cons
  · simp [MEDIAN_TIME_SPAN, times_from]
  · exact htime

variable {a d : BlockHash} {tx : Transaction} {n m : HeaderNode}

omit [Platform] in
theorem past_median_below (ht : t.Timed) (h : t.Below a d) {la ld : HeaderLink} (ha : t.link a = some la)
    (hd : t.link d = some ld) : t.past_median la.header ≤ t.past_median ld.header := by
  induction h generalizing ld with
  | refl =>
    cases ha.symm.trans hd
    exact le_rfl
  | tail _ hp ih =>
    obtain ⟨l, hc, h0, rfl⟩ := parent_eq_some.mp hp
    cases hd.symm.trans hc
    obtain ⟨p, hlp, hle⟩ := past_median_le ht hd h0
    exact (ih hlp).trans hle

omit [Platform] in
theorem is_final_tx_mono {height height' cutoff cutoff' : ℕ} (hh : height ≤ height') (hc : cutoff ≤ cutoff')
    (h : is_final_tx tx height cutoff = true) : is_final_tx tx height' cutoff' = true := by
  simp only [is_final_tx, Bool.or_eq_true, decide_eq_true_eq] at h ⊢
  rcases h with (h0 | hlt) | hall
  · exact Or.inl (Or.inl h0)
  · refine Or.inl (Or.inr ?_)
    split at hlt
    · rename_i hlow
      rw [if_pos hlow]
      omega
    · rename_i hhigh
      rw [if_neg hhigh]
      omega
  · exact Or.inr hall

theorem lock_points_below (hl : t.Linked) (hs : t.Skips) (h : t.Below a d) (ha : t.get a = some n)
    (hd : t.get d = some m) (mins : ℤ × ℤ) (spends : List (TxIn × Coin))
    (hcoins : ∀ spend ∈ spends, spend.2.height ≤ n.height) : lock_points t a mins spends = lock_points t d mins spends
    := by
  induction spends generalizing mins with
  | nil => rfl
  | cons spend spends ih =>
    obtain ⟨input, coin⟩ := spend
    rw [List.forall_mem_cons] at hcoins
    have hcoin : coin.height ≤ n.height := hcoins.1
    rw [lock_points, lock_points, @get_ancestor_below _ t a d (coin.height - 1) n m hl hs h ha hd (by omega)]
    simp only [ih _ hcoins.2]

theorem bip68_below (hl : t.Linked) (hs : t.Skips) (h : t.Below a d) (ha : t.get a = some n) (hd : t.get d = some m)
    {mtp mtp' : ℕ} (hm : mtp ≤ mtp') {spent : List Coin} (hcoins : ∀ coin ∈ spent, coin.height ≤ n.height)
    (hlock : bip68_locks_satisfied tx spent n.height mtp t a = true) :
    bip68_locks_satisfied tx spent m.height mtp' t d = true := by
  have hle : n.height ≤ m.height := by
    obtain ⟨n', hn', hle⟩ := h.get hl hd
    cases ha.symm.trans hn'
    exact hle
  have hpoints := lock_points_below hl hs h ha hd (-1, -1) (tx.inputs.zip spent)
    (fun spend hm => hcoins spend.2 (List.of_mem_zip hm).2)
  unfold bip68_locks_satisfied at hlock ⊢
  rw [← hpoints]
  split
  · rfl
  rename_i hversion
  rw [if_neg hversion] at hlock
  split at hlock
  · cases hlock
  · simp only [Bool.and_eq_true, decide_eq_true_eq] at hlock ⊢
    omega

theorem median_time_past_monotone {params : Params} {t : HeaderTree} (h : Reachable params t)
    (hroot : t.get params.genesis_header.prev_block_hash = none) :
    (∀ hash node, t.get hash = some node → hash ≠ params.genesis_header.hash →
      ∃ mtp parent_mtp, t.median_time_past hash = some mtp
        ∧ t.median_time_past node.header.prev_block_hash = some parent_mtp ∧ parent_mtp ≤ mtp)
      ∧ ∀ block descendant n m, t.Below block descendant → t.get block = some n → t.get descendant = some m →
        block ≠ params.genesis_header.hash →
        ∃ mtp mtp', t.median_time_past n.header.prev_block_hash = some mtp
          ∧ t.median_time_past m.header.prev_block_hash = some mtp'
          ∧ (∀ tx, is_final_tx tx n.height mtp = true → is_final_tx tx m.height mtp' = true)
          ∧ ∀ tx (spent : List Coin), (∀ coin ∈ spent, coin.height ≤ n.height) →
            bip68_locks_satisfied tx spent n.height mtp t block = true →
            bip68_locks_satisfied tx spent m.height mtp' t descendant = true := by
  obtain ⟨hl, hs⟩ := h.skips
  have ht : t.Timed := h.timed.2 (by rw [Rooted, h.params_eq]; exact hroot)
  have hgenesis : t.genesis = params.genesis_header.hash := by rw [genesis, h.params_eq]
  have hparent : ∀ hash node, t.get hash = some node → hash ≠ params.genesis_header.hash →
      node.height ≠ 0 ∧ ∃ parent, t.get node.header.prev_block_hash = some parent
        ∧ t.past_median parent.header ≤ t.past_median node.header := by
    intro hash node hn hne
    have hlink : t.link hash = some node.link := by rw [link, hn]; rfl
    have h0 : node.height ≠ 0 := fun h0 => hne ((hl.root hlink h0).trans hgenesis)
    obtain ⟨p, hp, hle⟩ := past_median_le ht hlink h0
    obtain ⟨parent, hparent, rfl⟩ := Option.map_eq_some_iff.mp hp
    exact ⟨h0, parent, hparent, hle⟩
  constructor
  · intro hash node hn hne
    obtain ⟨-, parent, hp, hle⟩ := hparent hash node hn hne
    exact ⟨_, _, median_time_past_eq hn, median_time_past_eq hp, hle⟩
  · intro block descendant n m hb hn hm hne
    obtain ⟨hn0, p, hp, -⟩ := hparent block n hn hne
    have hheight : n.height ≤ m.height := by
      obtain ⟨n', hn', hle⟩ := hb.get hl hm
      cases hn.symm.trans hn'
      exact hle
    obtain ⟨-, -, -, hnp⟩ := hl.get_parent hn hn0
    obtain ⟨q, hq, -, hmp⟩ := hl.get_parent hm (by omega)
    have hbelow : t.Below n.header.prev_block_hash m.header.prev_block_hash := by
      rcases hb.cases_tail with rfl | ⟨x, hbx, hx⟩
      · cases hn.symm.trans hm
        exact Relation.ReflTransGen.refl
      · have hxq : x = m.header.prev_block_hash := Option.some.inj (hx.symm.trans hmp)
        exact hxq ▸ Relation.ReflTransGen.head hnp hbx
    have hlp : t.link n.header.prev_block_hash = some p.link := by rw [link, hp]; rfl
    have hlq : t.link m.header.prev_block_hash = some q.link := by rw [link, hq]; rfl
    have hmtp : t.past_median p.header ≤ t.past_median q.header := past_median_below ht hbelow hlp hlq
    refine ⟨_, _, median_time_past_eq hp, median_time_past_eq hq, ?_, ?_⟩
    · intro tx hfinal
      exact is_final_tx_mono hheight hmtp hfinal
    · intro tx spent hcoins hlock
      exact bip68_below hl hs hb hn hm hmtp hcoins hlock

end

section

attribute [local instance] Platform.sample

def sample_branch : HeaderTree :=
  ((new sample_params).insert (sample_header 1 2 7) 100).2.insert (sample_header 2 3 7) 100 |>.2

theorem median_time_past_monotone_branch : ∃ node, sample_branch.get 3 = some node ∧
    ∃ mtp parent_mtp, sample_branch.median_time_past 3 = some mtp
      ∧ sample_branch.median_time_past node.header.prev_block_hash = some parent_mtp ∧ parent_mtp ≤ mtp := by
  have hsome : (sample_branch.get 3).isSome := by decide
  obtain ⟨node, hn⟩ := Option.isSome_iff_exists.mp hsome
  have hmono := @median_time_past_monotone _ sample_params sample_branch (.insert _ _ (.insert _ _ .new))
    (by decide)
  exact ⟨node, hn, hmono.1 3 node hn (by decide)⟩

end

end HeaderTree

end AvilaNode
