import AvilaNode.AncestorWalk

/-! The bits a header must carry, against the schedule stated over its ancestors. -/

namespace AvilaNode

def pow_limit_mainnet : ℕ := 0x00000000ffffffffffffffffffffffffffffffffffffffffffffffffffffffff

def pow_limit_signet : ℕ := 0x00000377ae000000000000000000000000000000000000000000000000000000

def pow_limit_regtest : ℕ := 0x7fffffffffffffffffffffffffffffffffffffffffffffffffffffffffffffff

namespace Network

def pow_limit : Network → ℕ
  | Mainnet => pow_limit_mainnet
  | Testnet4 => pow_limit_mainnet
  | Signet => pow_limit_signet
  | Regtest => pow_limit_regtest

def pow_target_spacing : Network → ℕ
  | Mainnet => 10 * 60
  | Testnet4 => 10 * 60
  | Signet => 10 * 60
  | Regtest => 10 * 60

def pow_target_timespan : Network → ℕ
  | Mainnet => 14 * 24 * 60 * 60
  | Testnet4 => 14 * 24 * 60 * 60
  | Signet => 14 * 24 * 60 * 60
  | Regtest => 24 * 60 * 60

def allow_min_difficulty_blocks : Network → Bool
  | Mainnet => false
  | Testnet4 => true
  | Signet => false
  | Regtest => true

def enforce_bip94 : Network → Bool
  | Mainnet => false
  | Testnet4 => true
  | Signet => false
  | Regtest => false

def no_retargeting : Network → Bool
  | Mainnet => false
  | Testnet4 => false
  | Signet => false
  | Regtest => true

/-- The fields of `Network::params` the schedule reads. The others are left to `rest`. -/
def params (network : Network) (rest : Params) : Params :=
  { rest with
    genesis_header := { rest.genesis_header with bits := network.genesis_bits }
    pow_limit := network.pow_limit
    pow_target_spacing := network.pow_target_spacing
    pow_target_timespan := network.pow_target_timespan
    allow_min_difficulty_blocks := network.allow_min_difficulty_blocks
    enforce_bip94 := network.enforce_bip94
    no_retargeting := network.no_retargeting }

def interval : Network → ℕ
  | Regtest => 144
  | _ => 2016

variable (network : Network)

theorem interval_eq (rest : Params) :
    (network.params rest).difficulty_adjustment_interval = network.interval := by
  change network.pow_target_timespan / network.pow_target_spacing = network.interval
  cases network <;> rfl

theorem timespan_eq : network.pow_target_timespan = network.interval * 600 := by
  cases network <;> rfl

theorem interval_pos : 0 < network.interval := by
  cases network <;> decide

theorem genesis_target : network.genesis_bits.expand.value ≤ network.pow_limit := by
  cases network <;> decide

theorem interval_le : network.interval ≤ 2016 := by
  cases network <;> decide

theorem pow_limit_scales :
    network.no_retargeting = true ∨ network.pow_limit * (network.interval * 600 * 4) < 2 ^ 256 := by
  cases network
  · exact Or.inr (by decide)
  · exact Or.inr (by decide)
  · exact Or.inr (by decide)
  · exact Or.inl rfl

def scaled_target (network : Network) (base : CompactTarget) (taken : ℤ) : ℕ :=
  let due := network.interval * 600
  min (base.expand.value * (max (due / 4 : ℤ) (min taken (due * 4))).toNat / due) network.pow_limit

end Network

theorem check_proof_of_work_target {hash : BlockHash} {bits : CompactTarget} {params : Params}
    (h : check_proof_of_work hash bits params = .ok ()) : bits.expand.value ≤ params.pow_limit := by
  unfold check_proof_of_work at h
  dsimp only at h
  by_contra hlt
  rw [if_pos (not_le.mp hlt)] at h
  split_ifs at h

theorem retarget_params {network : Network} {rest : Params} (hscaled : network.no_retargeting = false)
    {base : CompactTarget} (hbase : base.expand.value ≤ network.pow_limit) (last : BlockHeader) (first_time : ℕ) :
    retarget base last first_time (network.params rest)
      = to_compact (network.scaled_target base ((last.time : ℤ) - first_time)) := by
  have hfits : network.pow_limit * (network.interval * 600 * 4) < 2 ^ 256 := by
    rcases network.pow_limit_scales with h | h
    · rw [hscaled] at h
      cases h
    · exact h
  have hinterval := network.interval_le
  have hspan : (network.params rest).pow_target_timespan = network.interval * 600 := network.timespan_eq
  unfold retarget Network.scaled_target
  rw [if_neg (by rw [show (network.params rest).no_retargeting = network.no_retargeting from rfl, hscaled]; simp)]
  dsimp only
  rw [hspan, show (network.params rest).pow_limit = network.pow_limit from rfl]
  have hdue : min (((network.interval * 600 : ℕ)) : ℤ) I64_MAX = (network.interval * 600 : ℕ) := by
    rw [I64_MAX]
    omega
  have hmax : min (((network.interval * 600 : ℕ) : ℤ) * 4) I64_MAX = ((network.interval * 600 : ℕ) : ℤ) * 4 := by
    rw [I64_MAX]
    omega
  rw [hdue, hmax]
  have hclamped : (max (((network.interval * 600 : ℕ) : ℤ) / 4) (min ((last.time : ℤ) - first_time)
      (((network.interval * 600 : ℕ) : ℤ) * 4))).toNat ≤ network.interval * 600 * 4 := by omega
  rw [Nat.mod_eq_of_lt ((Nat.mul_le_mul hbase hclamped).trans_lt hfits)]

theorem median_time_past_le {times : List ℕ} {bound : ℕ} (h : ∀ time ∈ times, time ≤ bound) :
    median_time_past times ≤ bound := by
  unfold median_time_past
  rw [List.getD_eq_getElem?_getD]
  cases hget : ((times.take MEDIAN_TIME_SPAN).insertionSort (· ≤ ·))[
      ((times.take MEDIAN_TIME_SPAN).insertionSort (· ≤ ·)).length / 2]? with
  | none => exact Nat.zero_le _
  | some time =>
    have hmem := List.mem_of_getElem? hget
    rw [List.mem_insertionSort] at hmem
    exact h time (List.mem_of_mem_take hmem)

namespace HeaderTree

section

variable [Platform]

/-- The schedule: what a header on `parent` with the given time must carry. -/
def Scheduled (t : HeaderTree) (network : Network) (parent : HeaderNode) (new_time : ℕ) (bits : CompactTarget) :
    Prop :=
  let limit := to_compact network.pow_limit
  if (parent.height + 1) % network.interval ≠ 0 then
    if network.allow_min_difficulty_blocks then
      if parent.header.time + 20 * 60 < new_time then bits = limit
      else ∃ back near, t.parent_walk back parent = some near ∧ bits = near.header.bits
        ∧ (near.height % network.interval = 0 ∨ near.header.bits ≠ limit)
        ∧ ∀ nearer < back, ∃ node, t.parent_walk nearer parent = some node
          ∧ node.height % network.interval ≠ 0 ∧ node.header.bits = limit
    else bits = parent.header.bits
  else if network.no_retargeting then bits = parent.header.bits
  else ∃ first, t.parent_walk (network.interval - 1) parent = some first
    ∧ bits = to_compact (network.scaled_target
      (if network.enforce_bip94 then first.header.bits else parent.header.bits)
      ((parent.header.time : ℤ) - first.header.time))

variable {t : HeaderTree} {hash : BlockHash} {node parent : HeaderNode} {network : Network} {rest : Params}

theorem Linked.window_first (hl : t.Linked) (hn : t.get hash = some node) {steps : ℕ} (h : steps ≤ node.height) :
    ∃ at_ first, t.get at_ = some first ∧ t.parent_walk steps node = some first ∧ first.height + steps = node.height
      ∧ AvilaNode.window_first t.ancestor steps node.header = .ok first.header := by
  induction steps generalizing hash node with
  | zero => exact ⟨hash, node, hn, rfl, rfl, rfl⟩
  | succ steps ih =>
    obtain ⟨parent, hparent, hheight, -⟩ := hl.get_parent hn (by omega)
    obtain ⟨at_, first, hget, hwalk, hfirst, hheader⟩ := ih hparent (by omega)
    refine ⟨at_, first, hget, ?_, by omega, ?_⟩
    · rw [parent_walk, hparent, Option.bind_some, hwalk]
    · rw [AvilaNode.window_first, ancestor, hparent, Option.map_some]
      exact hheader

theorem Linked.last_real_header (hl : t.Linked) (interval : ℕ) (limit : CompactTarget) {height : ℕ}
    (hn : t.get hash = some node) (hheight : node.height = height) :
    ∃ back near, t.parent_walk back node = some near
      ∧ AvilaNode.last_real_header t.ancestor interval limit height node.header = .ok near.header
      ∧ (near.height % interval = 0 ∨ near.header.bits ≠ limit)
      ∧ ∀ nearer < back, ∃ between, t.parent_walk nearer node = some between
          ∧ between.height % interval ≠ 0 ∧ between.header.bits = limit := by
  induction height generalizing hash node with
  | zero => exact ⟨0, node, rfl, rfl, Or.inl (by rw [hheight, Nat.zero_mod]), by simp⟩
  | succ height ih =>
    rw [AvilaNode.last_real_header]
    split
    · rename_i hmin
      obtain ⟨parent, hparent, hph, -⟩ := hl.get_parent hn (by omega)
      obtain ⟨back, near, hwalk, hheader, hstop, hbetween⟩ := ih hparent (by omega)
      refine ⟨back + 1, near, ?_, ?_, hstop, ?_⟩
      · rw [parent_walk, hparent, Option.bind_some, hwalk]
      · rw [ancestor, hparent, Option.map_some]
        exact hheader
      · intro nearer hlt
        cases nearer with
        | zero => exact ⟨node, rfl, by rw [hheight]; exact hmin.1, hmin.2⟩
        | succ nearer =>
          rw [parent_walk, hparent, Option.bind_some]
          exact hbetween nearer (by omega)
    · rename_i hmin
      refine ⟨0, node, rfl, rfl, ?_, by simp⟩
      rw [hheight]
      by_contra hne
      rw [not_or, not_not] at hne
      exact hmin hne

theorem Reachable.targets (h : Reachable (network.params rest) t) :
    ∀ hash l, t.link hash = some l → (CompactTarget.expand l.header.bits).value ≤ network.pow_limit := by
  suffices hall : t.params = network.params rest ∧
      ∀ hash l, t.link hash = some l → (CompactTarget.expand l.header.bits).value ≤ network.pow_limit from hall.2
  refine h.links (P := fun t => t.params = network.params rest ∧
    ∀ hash l, t.link hash = some l → (CompactTarget.expand l.header.bits).value ≤ network.pow_limit) ⟨rfl, ?_⟩ ?_ ?_
  · intro hash l hl
    rw [link_new] at hl
    split at hl <;> cases hl
    exact network.genesis_target
  · rintro t t' hs ⟨hp, ih⟩
    refine ⟨hs.params.trans hp, fun hash l hl => ih hash l ?_⟩
    rwa [hs.link] at hl
  · rintro t header parent chainwork ha ⟨hp, ih⟩
    refine ⟨hp, fun hash l hl => ?_⟩
    rw [link_with_node] at hl
    split at hl
    · cases hl
      have hwork := ha.work
      rw [hp] at hwork
      exact check_proof_of_work_target hwork
    · exact ih hash l hl

theorem Linked.required_bits (hl : t.Linked) (hparams : t.params = network.params rest)
    (htargets : ∀ hash l, t.link hash = some l → (CompactTarget.expand l.header.bits).value ≤ network.pow_limit)
    (hn : t.get hash = some parent) {new_time : ℕ} (htime : new_time < 2 ^ 32) :
    ∃ bits, AvilaNode.required_bits parent.height parent.header new_time t.params t.ancestor = .ok bits
      ∧ t.Scheduled network parent new_time bits := by
  have hpos := network.interval_pos
  have hlimit : (network.params rest).pow_limit_compact = to_compact network.pow_limit := rfl
  have hspacing : (network.params rest).pow_target_spacing = 10 * 60 := by cases network <;> rfl
  have hspan : (network.params rest).pow_target_timespan = network.interval * 600 := network.timespan_eq
  have hmin : (network.params rest).allow_min_difficulty_blocks = network.allow_min_difficulty_blocks := rfl
  have hbip94 : (network.params rest).enforce_bip94 = network.enforce_bip94 := rfl
  unfold AvilaNode.required_bits Scheduled
  rw [hparams, network.interval_eq rest, if_neg (by rw [hspan]; omega)]
  rw [hlimit, hspacing, hmin, hbip94]
  split
  · split
    · split
      · rename_i hlate
        exact ⟨_, rfl, by rw [if_pos (by omega)]⟩
      rename_i hearly
      obtain ⟨back, near, hwalk, hheader, hstop, hbetween⟩ :=
        hl.last_real_header network.interval (to_compact network.pow_limit) hn rfl
      rw [hheader]
      refine ⟨_, rfl, ?_⟩
      rw [if_neg (by omega)]
      exact ⟨back, near, hwalk, rfl, hstop, hbetween⟩
    · exact ⟨_, rfl, rfl⟩
  · rename_i hboundary
    -- A multiple of the interval is at least the interval, so the window never passes the genesis.
    have hge : network.interval ≤ parent.height + 1 :=
      Nat.le_of_dvd (Nat.succ_pos _) (Nat.dvd_of_mod_eq_zero (not_not.mp hboundary))
    rw [min_eq_left (by omega)]
    have hsteps : network.interval - 1 ≤ parent.height := by omega
    obtain ⟨at_, first, hget, hwalk, -, hheader⟩ := hl.window_first hn hsteps
    rw [hheader]
    refine ⟨_, rfl, ?_⟩
    cases hscaled : network.no_retargeting with
    | true =>
      rw [if_pos rfl, retarget]
      exact if_pos hscaled
    | false =>
      rw [if_neg (by simp)]
      refine ⟨first, hwalk, ?_⟩
      apply retarget_params hscaled
      split
      · exact htargets at_ first.link (by rw [link, hget]; rfl)
      · exact htargets hash parent.link (by rw [link, hn]; rfl)

theorem required_bits_scheduled (h : Reachable (network.params rest) t) (hn : t.get hash = some parent)
    {new_time : ℕ} (htime : new_time < 2 ^ 32) :
    ∃ bits, required_bits parent.height parent.header new_time t.params t.ancestor = .ok bits
      ∧ t.Scheduled network parent new_time bits :=
  h.linked.required_bits h.params_eq h.targets hn htime

theorem insert_accepted {header : BlockHeader} {chainwork now : ℕ} (ha : t.Accepts header parent chainwork)
    (hwarp : t.params.enforce_bip94 = false) (hnow : header.time ≤ now + MAX_FUTURE_BLOCK_TIME)
    (hversion : version_floor t.params header.version (parent.height + 1) = false) :
    (t.insert header now).2 = t.with_node header parent chainwork := by
  have hfits : ¬ 2 ^ 32 ≤ parent.height + 1 := not_le.mpr ha.height_fits
  have htime : check_block_time header.time (AvilaNode.median_time_past (t.ancestor_times parent)) now none =
    .ok () := by
    unfold check_block_time
    rw [if_neg (not_le.mpr ha.time), Option.filter_none]
    rw [if_neg (by omega)]
  unfold HeaderTree.insert
  rw [ha.new]
  rw [ha.work]
  rw [ha.parent_known]
  dsimp only
  rw [if_neg ha.parent_valid, ha.bits]
  dsimp only
  rw [if_neg (by simp), if_neg (by simp [hwarp]), htime]
  rw [hversion, if_neg (by simp), insert_node, ha.chainwork_eq]
  dsimp only
  rw [if_neg hfits]
  rfl

omit [Platform] in
theorem collect_times_le {bound : ℕ} (h : ∀ hash n, t.get hash = some n → n.header.time ≤ bound) (slots : ℕ)
    (hn : node.header.time ≤ bound) :
    ∀ time ∈ t.collect_times slots node, time ≤ bound := by
  induction slots generalizing node with
  | zero => simp [collect_times]
  | succ slots ih =>
    intro time hm
    rw [collect_times, List.mem_cons] at hm
    rcases hm with rfl | hm
    · exact hn
    · split at hm
      · rename_i parent hparent
        exact ih (h _ parent hparent) time hm
      · cases hm

end

theorem foldl_bytes_lt {digit : ℕ → ℕ} (hd : ∀ i, digit i < 256) {l : List ℕ} {v n : ℕ} (hv : v < 256 ^ n) :
    l.foldl (fun v i => v * 256 + digit i) v < 256 ^ (n + l.length) := by
  induction l generalizing v n with
  | nil => exact hv
  | cons i l ih =>
    have hstep : v * 256 + digit i < 256 ^ (n + 1) := by
      have := hd i
      rw [Nat.pow_succ]
      omega
    have hrest := ih hstep
    rwa [Nat.add_assoc, Nat.add_comm 1] at hrest

theorem le_value_lt {hash : BlockHash} (h : hash.toNat % 256 = 0) : Hash256.le_value hash < 256 ^ 31 := by
  have hfirst : List.range 32 = 0 :: List.range' 1 31 := by decide
  rw [Hash256.le_value, hfirst, List.foldl_cons, Nat.zero_mul, Nat.zero_add, Nat.pow_zero, Nat.div_one, h]
  have hdigit (i : ℕ) : hash.toNat / 256 ^ i % 256 < 256 := Nat.mod_lt _ (by decide)
  have hrest := @foldl_bytes_lt _ hdigit (List.range' 1 31) 0 0 (by decide)
  rwa [List.length_range', Nat.zero_add] at hrest

section

attribute [local instance] Platform.sample

def regtest_rest : Params := { sample_params with genesis_header := ⟨1, 5, 0, 1, 0, 0⟩ }

def regtest_params : Params := Network.Regtest.params regtest_rest

def regtest_name (k : ℕ) : BlockHash := BitVec.ofNat 256 (256 * k)

def regtest_header (k : ℕ) : BlockHeader := ⟨4, regtest_name (k - 1), 7, k + 1, 0x207fffff, 256 * k⟩

def regtest_chain : ℕ → HeaderTree
  | 0 => new regtest_params
  | n + 1 => ((regtest_chain n).insert (regtest_header (n + 1)) 10000).2

theorem regtest_work (k : ℕ) : check_proof_of_work (regtest_name k) 0x207fffff regtest_params = .ok () := by
  have hexpand : CompactTarget.expand 0x207fffff = ⟨0x7fffff * 2 ^ 232, false, false⟩ := by decide
  have hlimit : ¬ regtest_params.pow_limit < 0x7fffff * 2 ^ 232 := by decide
  have hsmall : Hash256.le_value (regtest_name k) < 256 ^ 31 := by
    apply le_value_lt
    rw [regtest_name, BitVec.toNat_ofNat]
    omega
  have hfits : ¬ 0x7fffff * 2 ^ 232 < Hash256.le_value (regtest_name k) := by omega
  unfold check_proof_of_work
  rw [hexpand]
  rw [if_neg (by decide), if_neg (by decide), if_neg (by decide), if_neg hlimit, if_neg hfits]

variable {hash : BlockHash} {n : ℕ}

theorem parent_walk_known {t : HeaderTree} {steps : ℕ} {node n : HeaderNode} (hn : t.get hash = some node)
    (hwalk : t.parent_walk steps node = some n) : ∃ at_, t.get at_ = some n := by
  induction steps generalizing hash node with
  | zero =>
    cases hwalk
    exact ⟨hash, hn⟩
  | succ steps ih =>
    obtain ⟨parent, hparent, hrest⟩ := Option.bind_eq_some_iff.mp hwalk
    exact ih hparent hrest

theorem required_bits_scheduled_genesis : ∃ parent, (new regtest_params).get (regtest_name 0) = some parent
    ∧ ∃ bits, required_bits parent.height parent.header 7 (new regtest_params).params (new regtest_params).ancestor
      = .ok bits ∧ (new regtest_params).Scheduled .Regtest parent 7 bits := by
  have hsome : ((new regtest_params).get (regtest_name 0)).isSome := by decide
  obtain ⟨parent, hn⟩ := Option.isSome_iff_exists.mp hsome
  exact ⟨parent, hn, required_bits_scheduled .new hn (by decide)⟩

structure RegtestChain (n : ℕ) (t : HeaderTree) : Prop where
  params : t.params = regtest_params
  unmarked : t.invalid = ∅
  linked : t.Linked
  known : ∀ k ≤ n, ∃ l, t.link (regtest_name k) = some l ∧ l.height = k ∧ l.header.time = k + 1
    ∧ l.header.bits = 0x207fffff ∧ l.chainwork = 2 * (k + 1)
  only : ∀ hash l, t.link hash = some l → ∃ k ≤ n, hash = regtest_name k

theorem regtest_name_ne {j k : ℕ} (hj : j ≤ 2016) (hk : k ≤ 2016) (h : j ≠ k) : regtest_name j ≠ regtest_name k := by
  unfold regtest_name
  intro he
  have := congrArg BitVec.toNat he
  simp only [BitVec.toNat_ofNat] at this
  omega

theorem RegtestChain.facts {n : ℕ} {t : HeaderTree} (h : RegtestChain n t) {hash : BlockHash} {l : HeaderLink}
    (hl : t.link hash = some l) : l.height ≤ n ∧ l.header.time = l.height + 1 ∧ l.header.bits = 0x207fffff := by
  obtain ⟨k, hk, rfl⟩ := h.only hash l hl
  obtain ⟨l', hl', hheight, htime, hbits, -⟩ := h.known k hk
  cases hl.symm.trans hl'
  exact ⟨by omega, by omega, hbits⟩

theorem RegtestChain.required_bits {t : HeaderTree} (h : RegtestChain n t) {parent : HeaderNode}
    (hn : t.get hash = some parent) {new_time : ℕ} (htime : new_time < 2 ^ 32) :
    AvilaNode.required_bits parent.height parent.header new_time t.params t.ancestor = .ok 0x207fffff := by
  have htargets : ∀ hash l, t.link hash = some l →
      (CompactTarget.expand l.header.bits).value ≤ Network.Regtest.pow_limit := by
    intro hash l hl
    rw [(h.facts hl).2.2]
    decide
  have hmin : Network.Regtest.allow_min_difficulty_blocks = true := rfl
  have hfixed : Network.Regtest.no_retargeting = true := rfl
  have hlimit : to_compact Network.Regtest.pow_limit = 0x207fffff := by decide +kernel
  have hparent : parent.header.bits = 0x207fffff := (h.facts (l := parent.link) (by rw [link, hn]; rfl)).2.2
  have hparams : t.params = Network.Regtest.params regtest_rest := h.params
  have hreq := h.linked.required_bits hparams htargets hn htime
  obtain ⟨bits, hok, hscheduled⟩ := hreq
  rw [hok]
  apply congrArg Except.ok
  unfold Scheduled at hscheduled
  dsimp only at hscheduled
  rw [hlimit, if_pos hmin, if_pos hfixed] at hscheduled
  split at hscheduled
  · split at hscheduled
    · exact hscheduled
    · obtain ⟨back, near, hwalk, rfl, -⟩ := hscheduled
      obtain ⟨at_, hnear⟩ := parent_walk_known hn hwalk
      exact (h.facts (l := near.link) (by rw [link, hnear]; rfl)).2.2
  · rw [hscheduled, hparent]

theorem RegtestChain.extend {t : HeaderTree} (h : RegtestChain n t) (hn : n < 2015) :
    RegtestChain (n + 1) (t.insert (regtest_header (n + 1)) 10000).2 := by
  have hhash : (regtest_header (n + 1)).hash = regtest_name (n + 1) := rfl
  obtain ⟨l, hlink, hheight, htime, hbits, hwork⟩ := h.known n le_rfl
  obtain ⟨parent, hparent, rfl⟩ := Option.map_eq_some_iff.mp hlink
  have hnew : t.link (regtest_name (n + 1)) = none := by
    by_contra hne
    obtain ⟨l, hl⟩ := Option.ne_none_iff_exists'.mp hne
    obtain ⟨k, hk, he⟩ := h.only _ l hl
    exact regtest_name_ne (by omega) (by omega) (by omega) he
  have ha : t.Accepts (regtest_header (n + 1)) parent (2 * (n + 2)) := by
    constructor
    · rw [hhash]
      exact Option.map_eq_none_iff.mp hnew
    · exact hparent
    · rw [h.unmarked]
      exact Finset.notMem_empty _
    · rw [hhash, h.params]
      exact regtest_work (n + 1)
    · exact h.required_bits hparent (by simp only [regtest_header]; omega)
    · refine (@median_time_past_le _ (n + 1) ?_).trans_lt (by simp only [regtest_header]; omega)
      apply collect_times_le
      · intro hash node hget
        have hf := @RegtestChain.facts n t h hash node.link (by rw [link, hget]; rfl)
        have : node.header.time = node.height + 1 := hf.2.1
        have : node.height ≤ n := hf.1
        omega
      · exact htime.le
    · have hw : parent.chainwork = 2 * (n + 1) := hwork
      have hone : Work.from_compact (regtest_header (n + 1)).bits = 2 := by
        change Work.from_compact 0x207fffff = 2
        decide
      rw [hw, hone, Work.checked_add, if_pos (by omega)]
      congr 1
    · have : parent.height = n := hheight
      omega
  have hversion : version_floor t.params (regtest_header (n + 1)).version (parent.height + 1) = false := rfl
  rw [insert_accepted ha (by rw [h.params]; rfl)
    (by simp only [regtest_header, MAX_FUTURE_BLOCK_TIME]; omega) hversion]
  refine ⟨h.params, h.unmarked, h.linked.with_node ha, ?_, ?_⟩
  · intro k hk
    rcases Nat.lt_or_ge k (n + 1) with hlt | hge
    · obtain ⟨l, hl, hrest⟩ := h.known k (by omega)
      exact ⟨l, ha.link_old hl, hrest⟩
    · obtain rfl : k = n + 1 := by omega
      refine ⟨_, by rw [link_with_node]; exact if_pos hhash.symm, ?_, rfl, rfl, rfl⟩
      exact congrArg (· + 1) hheight
  · intro hash l hl
    rw [link_with_node] at hl
    split at hl
    · rename_i he
      exact ⟨n + 1, le_rfl, by rw [he, hhash]⟩
    · obtain ⟨k, hk, he⟩ := h.only hash l hl
      exact ⟨k, by omega, he⟩

theorem regtest_chain_spec (hn : n ≤ 2015) :
    Reachable regtest_params (regtest_chain n) ∧ RegtestChain n (regtest_chain n) := by
  induction n with
  | zero =>
    refine ⟨.new, rfl, rfl, Linked.new _, ?_, ?_⟩
    · intro k hk
      rw [Nat.le_zero.mp hk]
      refine ⟨_, by rw [regtest_chain, link_new]; exact if_pos rfl, rfl, rfl, rfl, ?_⟩
      decide
    · intro hash l hl
      rw [regtest_chain, link_new] at hl
      split at hl
      · rename_i he
        exact ⟨0, le_rfl, he⟩
      · cases hl
  | succ n ih =>
    obtain ⟨hreach, hchain⟩ := ih (by omega)
    exact ⟨.insert _ _ hreach, hchain.extend (by omega)⟩

theorem regtest_scaled {taken : ℤ} (h : taken ≤ 21600) :
    to_compact (Network.Regtest.scaled_target 0x207fffff taken) ≠ 0x207fffff := by
  have hdue : Network.Regtest.interval * 600 = 86400 := rfl
  unfold Network.scaled_target
  dsimp only
  rw [hdue]
  have hclamped : (max (((86400 : ℕ) : ℤ) / 4) (min taken (((86400 : ℕ) : ℤ) * 4))).toNat = 21600 := by omega
  rw [hclamped]
  decide +kernel

/-- At a boundary regtest keeps the parent's bits, whichever ancestor the window is measured from. -/
theorem regtest_never_retargets : Reachable regtest_params (regtest_chain 2015)
    ∧ ∃ parent, (regtest_chain 2015).get (regtest_name 2015) = some parent ∧ parent.height + 1 = 2016
      ∧ (∃ first, (regtest_chain 2015).parent_walk (Network.Regtest.interval - 1) parent = some first)
      ∧ ∀ steps first, (regtest_chain 2015).parent_walk steps parent = some first →
        required_bits parent.height parent.header 3000 (regtest_chain 2015).params (regtest_chain 2015).ancestor
          ≠ .ok (to_compact (Network.Regtest.scaled_target parent.header.bits
            ((parent.header.time : ℤ) - first.header.time))) := by
  obtain ⟨hreach, hchain⟩ := regtest_chain_spec (le_refl 2015)
  obtain ⟨l, hlink, hheight, htime, hbits, -⟩ := hchain.known 2015 le_rfl
  obtain ⟨parent, hparent, rfl⟩ := Option.map_eq_some_iff.mp hlink
  have hph : parent.height = 2015 := hheight
  have hpt : parent.header.time = 2016 := htime
  have hpb : parent.header.bits = 0x207fffff := hbits
  refine ⟨hreach, parent, hparent, by rw [hph], ?_, ?_⟩
  · have hsteps : Network.Regtest.interval - 1 ≤ parent.height := by
      rw [hph]
      decide
    obtain ⟨-, first, -, hwalk, -⟩ := hchain.linked.window_first hparent hsteps
    exact ⟨first, hwalk⟩
  · intro steps first hwalk
    rw [hchain.required_bits hparent (by decide), hpb, hpt]
    intro he
    exact regtest_scaled (by omega) (Except.ok.inj he).symm

end

end HeaderTree

end AvilaNode
