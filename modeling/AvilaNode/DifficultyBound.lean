import AvilaNode.CompactForm
import AvilaNode.HeadersSync
import AvilaNode.WorkSchedule

/-! The difficulty bound of the first pass of a header download, against the schedule. -/

namespace AvilaNode

namespace Network

variable {network : Network}

theorem retargets (h : network.allow_min_difficulty_blocks = false) :
    network.no_retargeting = false ∧ network.enforce_bip94 = false := by
  cases network
  · exact ⟨rfl, rfl⟩
  · cases h
  · exact ⟨rfl, rfl⟩
  · cases h

variable {old timespan : ℕ}

theorem product_fits (h : network.allow_min_difficulty_blocks = false) (hold : old ≤ network.pow_limit)
    (hspan : timespan ≤ network.interval * 600 * 4) :
    old * timespan < 2 ^ 256 := by
  rcases network.pow_limit_scales with hfixed | hfits
  · rw [(retargets h).1] at hfixed
    cases hfixed
  · exact (Nat.mul_le_mul hold hspan).trans_lt hfits

theorem pow_limit_lt (network : Network) : network.pow_limit < 2 ^ 256 := by
  cases network <;> decide

theorem clamp_target_eq (h : network.allow_min_difficulty_blocks = false) (rest : Params)
    (hold : old ≤ network.pow_limit) (hspan : timespan ≤ network.interval * 600 * 4) :
    clamp_target (network.params rest) old timespan
      = Arith.truncated (min (old * timespan / (network.interval * 600)) network.pow_limit) := by
  have hdue : (network.params rest).pow_target_timespan = network.interval * 600 := network.timespan_eq
  have hlimit : (network.params rest).pow_limit = network.pow_limit := rfl
  rw [clamp_target, hdue, hlimit, Nat.mod_eq_of_lt (product_fits h hold hspan)]
  exact Arith.expand_to_compact ((min_le_right _ _).trans_lt network.pow_limit_lt)

theorem permitted_scaled (h : network.allow_min_difficulty_blocks = false) (rest : Params) {height : ℕ} (hheight :
    height % network.interval = 0) {old : CompactTarget} (hold : old.expand.value ≤ network.pow_limit) (taken : ℤ) :
    permitted_difficulty_transition (network.params rest) height old (to_compact (network.scaled_target old taken))
      = true := by
  have hmin : (network.params rest).allow_min_difficulty_blocks = false := h
  have hdue : (network.params rest).pow_target_timespan = network.interval * 600 := network.timespan_eq
  have hpos := network.interval_pos
  have hscaled : network.scaled_target old taken < 2 ^ 256 := (min_le_right _ _).trans_lt network.pow_limit_lt
  have horder {low high : ℕ} (hle : low ≤ high) :
      Arith.truncated (min (old.expand.value * low / (network.interval * 600)) network.pow_limit)
        ≤ Arith.truncated (min (old.expand.value * high / (network.interval * 600)) network.pow_limit) :=
    Arith.truncated_mono (min_le_min (Nat.div_le_div_right (Nat.mul_le_mul_left _ hle)) le_rfl)
  have hbelow := horder (show (max (((network.interval * 600 : ℕ) : ℤ) / 4) (min taken
    (((network.interval * 600 : ℕ) : ℤ) * 4))).toNat ≤ network.interval * 600 * 4 by omega)
  have habove := horder (show network.interval * 600 / 4 ≤ (max (((network.interval * 600 : ℕ) : ℤ) / 4) (min taken
    (((network.interval * 600 : ℕ) : ℤ) * 4))).toNat by omega)
  have hnew := Arith.expand_to_compact hscaled
  rw [scaled_target] at hnew hscaled
  unfold permitted_difficulty_transition
  dsimp only
  rw [if_neg (by rw [hmin]; simp), network.interval_eq rest, if_neg (by omega), hdue,
    clamp_target_eq h rest hold le_rfl, clamp_target_eq h rest hold (by omega), scaled_target, hnew,
    if_neg (not_lt.mpr hbelow), if_neg (not_lt.mpr habove)]

end Network

namespace HeaderTree

section

variable [Platform]

omit [Platform] in
theorem required_bits_time {params : Params} (h : params.allow_min_difficulty_blocks = false) (height : ℕ)
    (last : BlockHeader) (ancestor : BlockHash → Option BlockHeader) (time time' : ℕ) :
    required_bits height last time params ancestor = required_bits height last time' params ancestor := by
  unfold required_bits
  rw [h]
  simp only [Bool.false_eq_true, if_false]

variable {network : Network} {rest : Params}

variable {t : HeaderTree}

variable {parent : HeaderNode}

omit [Platform] in
theorem Scheduled.permitted (h : network.allow_min_difficulty_blocks = false) {new_time : ℕ} {bits : CompactTarget}
    (hs : t.Scheduled network parent new_time bits)
    (hold : (CompactTarget.expand parent.header.bits).value ≤ network.pow_limit) :
    permitted_difficulty_transition (network.params rest) (parent.height + 1) parent.header.bits bits = true := by
  have hmin : (network.params rest).allow_min_difficulty_blocks = false := h
  obtain ⟨hscaled, hbip94⟩ := Network.retargets h
  unfold Scheduled at hs
  rw [h, hscaled, hbip94] at hs
  split at hs
  · rename_i hbetween
    rw [if_neg (by simp)] at hs
    unfold permitted_difficulty_transition
    rw [if_neg (by rw [hmin]; simp), network.interval_eq rest, if_pos (Or.inr hbetween), hs]
    exact beq_self_eq_true _
  · rename_i hboundary
    rw [if_neg (by simp)] at hs
    obtain ⟨first, -, rfl⟩ := hs
    rw [if_neg (by simp)]
    exact Network.permitted_scaled h rest (not_not.mp hboundary) hold _

def Permitted (t : HeaderTree) : Prop :=
  ∀ hash child parent, t.link hash = some child → child.height ≠ 0 →
    t.link child.header.prev_block_hash = some parent →
      permitted_difficulty_transition t.params child.height parent.header.bits child.header.bits = true

theorem Accepts.permitted (h : network.allow_min_difficulty_blocks = false) {header : BlockHeader} {chainwork : ℕ}
    (hr : Reachable (network.params rest) t) (ha : t.Accepts header parent chainwork) (hp : t.Permitted) :
    (t.with_node header parent chainwork).Permitted := by
  have hlink : t.link header.prev_block_hash = some parent.link := by rw [link, ha.parent_known]; rfl
  intro hash child known hchild hheight hknown
  change permitted_difficulty_transition t.params _ _ _ = true
  rw [link_with_node] at hchild
  split at hchild
  · cases hchild
    cases (ha.link_old hlink).symm.trans hknown
    obtain ⟨bits, hbits, hscheduled⟩ := required_bits_scheduled hr ha.parent_known (show 0 < 2 ^ 32 by decide)
    have hfree : t.params.allow_min_difficulty_blocks = false := by
      rw [hr.params_eq]
      exact h
    rw [required_bits_time hfree _ _ _ 0 header.time, ha.bits] at hbits
    obtain rfl := Except.ok.inj hbits
    have hold := hr.targets header.prev_block_hash parent.link hlink
    rw [hr.params_eq]
    exact hscheduled.permitted h hold
  · obtain ⟨before, hbefore, -⟩ := hr.linked.linked hchild hheight
    cases (ha.link_old hbefore).symm.trans hknown
    exact hp hash child known hchild hheight hbefore

theorem Reachable.permitted (h : network.allow_min_difficulty_blocks = false) (hr : Reachable (network.params rest) t) :
    t.Permitted := by
  refine hr.links_from ?_ ?_ (Accepts.permitted h)
  · intro hash child parent hchild hheight
    rw [link_new] at hchild
    split at hchild <;> cases hchild
    exact absurd rfl hheight
  · intro t t' hs hp hash child parent hchild hheight hparent
    rw [hs.link] at hchild hparent
    rw [hs.params]
    exact hp hash child parent hchild hheight hparent

/-- Where blocks of minimum difficulty are not allowed, the first pass's bound lets every accepted header through over
its parent, and neither its products nor that of the schedule wraps. -/
theorem presync_bound_honest (hmin : network.allow_min_difficulty_blocks = false) {t : HeaderTree}
    (hr : Reachable (network.params rest) t) :
    (∀ hash child, t.get hash = some child → child.height ≠ 0 →
      ∃ parent, t.get child.header.prev_block_hash = some parent ∧ child.height = parent.height + 1 ∧
        permitted_difficulty_transition t.params child.height parent.header.bits child.header.bits = true) ∧
    ∀ old ≤ t.params.pow_limit, old * (t.params.pow_target_timespan * 4) < 2 ^ 256 ∧
      old * (t.params.pow_target_timespan / 4) < 2 ^ 256 ∧
      ∀ actual : ℤ, let timespan := min (t.params.pow_target_timespan : ℤ) I64_MAX
        old * (max (timespan / 4) (min actual (min (timespan * 4) I64_MAX))).toNat < 2 ^ 256 := by
  have hdue : t.params.pow_target_timespan = network.interval * 600 := by
    rw [hr.params_eq]
    exact network.timespan_eq
  have hlimit : t.params.pow_limit = network.pow_limit := by rw [hr.params_eq]; rfl
  rw [hdue, hlimit]
  constructor
  · intro hash child hchild hheight
    obtain ⟨parent, hparent, hsucc, -⟩ := hr.linked.get_parent hchild hheight
    refine ⟨parent, hparent, hsucc, ?_⟩
    exact hr.permitted hmin hash child.link parent.link (by rw [link, hchild]; rfl) hheight
      (by rw [link]; exact congrArg (Option.map HeaderNode.link) hparent)
  · intro old hold
    refine ⟨Network.product_fits hmin hold le_rfl, Network.product_fits hmin hold (by omega), ?_⟩
    intro actual
    apply Network.product_fits hmin hold
    have := network.interval_le
    rw [I64_MAX]
    omega

end

section

attribute [local instance] Platform.sample

def mainnet_rest : Params := { sample_params with genesis_header := ⟨1, 5, 0, 1, 0, 0⟩ }

def mainnet_header : BlockHeader := ⟨4, 0, 7, 2, 0x1d00ffff, 2 ^ 40⟩

def mainnet_tree : HeaderTree := ((new (Network.Mainnet.params mainnet_rest)).insert mainnet_header 10000).2

theorem presync_bound_honest_mainnet : (mainnet_tree.get (BitVec.ofNat 256 (2 ^ 40))).isSome ∧
    ∀ hash child, mainnet_tree.get hash = some child → child.height ≠ 0 →
      ∃ parent, mainnet_tree.get child.header.prev_block_hash = some parent ∧ child.height = parent.height + 1 ∧
        permitted_difficulty_transition mainnet_tree.params child.height parent.header.bits child.header.bits
          = true :=
  ⟨by decide +kernel, (presync_bound_honest rfl (.insert mainnet_header 10000 .new)).1⟩

end

end HeaderTree

end AvilaNode
