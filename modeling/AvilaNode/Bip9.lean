import AvilaNode.MedianTime

/-! Versionbits deployments: evaluated backwards from a block, equal to replaying every window from the genesis. -/

namespace AvilaNode

inductive Bip9State where
  | Defined
  | Started
  | LockedIn
  | Active
  | Failed
deriving DecidableEq, Repr

structure Bip9Deployment where
  bit : ℕ
  start_time : ℤ
  timeout : ℤ
  min_activation_height : ℕ
deriving DecidableEq, Repr

def BIP9_ALWAYS_ACTIVE : ℤ := -1

def BIP9_NEVER_ACTIVE : ℤ := -2

structure VersionbitsParams extends Params where
  rule_change_activation_threshold : ℕ

def VersionbitsParams.period (params : VersionbitsParams) : ℕ := params.difficulty_adjustment_interval % 2 ^ 32

def signals (header : BlockHeader) (bit : ℕ) : Bool :=
  let v := (header.version % 2 ^ 32).toNat
  v &&& 0xE0000000 == 0x20000000 && (v >>> bit) &&& 1 == 1

namespace Bip9

section

variable [Platform]

def ancestor_back (t : HeaderTree) (n : HeaderNode) (back : ℕ) : Option HeaderNode :=
  if back ≤ n.height then t.get_ancestor n.hash (n.height - back) else none

def mtp (t : HeaderTree) (n : HeaderNode) : ℤ := ((t.median_time_past n.hash).getD 0 : ℕ)

def count_signals (t : HeaderTree) (bit : ℕ) : ℕ → Option HeaderNode → ℕ
  | 0, _ => 0
  | _, none => 0
  | blocks + 1, some node =>
    (if signals node.header bit then 1 else 0) + count_signals t bit blocks (t.get node.header.prev_block_hash)

def transition (t : HeaderTree) (dep : Bip9Deployment) (params : VersionbitsParams) (n : HeaderNode) :
    Bip9State → Bip9State
  | .Defined => if dep.start_time ≤ mtp t n then .Started else .Defined
  | .Started =>
    if params.rule_change_activation_threshold ≤ count_signals t dep.bit params.period (some n) then .LockedIn
    else if dep.timeout ≤ mtp t n then .Failed
    else .Started
  | .LockedIn => if dep.min_activation_height ≤ n.height + 1 then .Active else .LockedIn
  | .Active => .Active
  | .Failed => .Failed

def to_compute (t : HeaderTree) (dep : Bip9Deployment) (params : VersionbitsParams) :
    ℕ → Option HeaderNode → List HeaderNode
  | 0, _ => []
  | _, none => []
  | fuel + 1, some n =>
    if mtp t n < dep.start_time then []
    else n :: to_compute t dep params fuel (ancestor_back t n params.period)

def aligned (t : HeaderTree) (params : VersionbitsParams) (n : HeaderNode) : Option HeaderNode :=
  ancestor_back t n ((n.height + 1) % params.period)

def state (t : HeaderTree) (prev : Option BlockHash) (dep : Bip9Deployment) (params : VersionbitsParams) :
    Bip9State :=
  if dep.start_time = BIP9_ALWAYS_ACTIVE then .Active
  else if dep.start_time = BIP9_NEVER_ACTIVE then .Failed
  else
    match (prev.bind t.get).bind (aligned t params) with
    | none => .Defined
    | some n => (to_compute t dep params (n.height + 1) (some n)).foldr (transition t dep params) .Defined

def since_walk (t : HeaderTree) (dep : Bip9Deployment) (params : VersionbitsParams) (initial : Bip9State) :
    ℕ → HeaderNode → HeaderNode
  | 0, cursor => cursor
  | fuel + 1, cursor =>
    match ancestor_back t cursor params.period with
    | none => cursor
    | some pp =>
      if state t (some pp.hash) dep params ≠ initial then cursor else since_walk t dep params initial fuel pp

def state_since (t : HeaderTree) (prev : Option BlockHash) (dep : Bip9Deployment) (params : VersionbitsParams) : ℕ :=
  if dep.start_time = BIP9_ALWAYS_ACTIVE ∨ dep.start_time = BIP9_NEVER_ACTIVE then 0
  else
    let initial := state t prev dep params
    if initial = .Defined then 0
    else
      match (prev.bind t.get).bind (aligned t params) with
      | none => 0
      | some first => (since_walk t dep params initial first.height first).height + 1

def close_window (t : HeaderTree) (dep : Bip9Deployment) (params : VersionbitsParams) (n : HeaderNode)
    (before : Bip9State) : Bip9State :=
  if (n.height + 1) % params.period = 0 then transition t dep params n before else before

def forward (t : HeaderTree) (dep : Bip9Deployment) (params : VersionbitsParams) : ℕ → HeaderNode → Bip9State
  | 0, node => close_window t dep params node .Defined
  | height + 1, node =>
    match t.get node.header.prev_block_hash with
    | some parent => close_window t dep params node (forward t dep params height parent)
    | none => close_window t dep params node .Defined

def forward_state (t : HeaderTree) (dep : Bip9Deployment) (params : VersionbitsParams) (node : HeaderNode) :
    Bip9State :=
  if dep.start_time = BIP9_ALWAYS_ACTIVE then .Active
  else if dep.start_time = BIP9_NEVER_ACTIVE then .Failed
  else forward t dep params node.height node

def governing (t : HeaderTree) (dep : Bip9Deployment) (params : VersionbitsParams) (hash : BlockHash) (height : ℕ) :
    Bip9State :=
  state t (if height = 0 then none else (t.get_ancestor hash (height - 1)).map HeaderNode.hash) dep params

def rank : Bip9State → ℕ
  | .Defined => 0
  | .Started => 1
  | .LockedIn => 2
  | .Active => 3
  | .Failed => 4

omit [Platform] in
theorem rank_inj {s s' : Bip9State} (h : rank s = rank s') : s = s' := by
  cases s <;> cases s' <;> simp [rank] at h ⊢

theorem rank_transition (t : HeaderTree) (dep : Bip9Deployment) (params : VersionbitsParams) (n : HeaderNode)
    (s : Bip9State) : rank s ≤ rank (transition t dep params n s) := by
  cases s <;> simp only [transition]
  · split <;> simp [rank]
  · split
    · simp [rank]
    · split <;> simp [rank]
  · split <;> simp [rank]
  · exact le_rfl
  · exact le_rfl

theorem rank_close_window (t : HeaderTree) (dep : Bip9Deployment) (params : VersionbitsParams) (n : HeaderNode)
    (s : Bip9State) : rank s ≤ rank (close_window t dep params n s) := by
  unfold close_window
  split
  · exact rank_transition t dep params n s
  · exact le_rfl

section

variable {t : HeaderTree} (hl : t.Linked)

include hl

variable {dep : Bip9Deployment} {params : VersionbitsParams} {hash a d : BlockHash} {n : HeaderNode}

theorem forward_step (hn : t.get hash = some n) (h0 : n.height ≠ 0) : ∃ p, t.get n.header.prev_block_hash = some p
      ∧ n.height = p.height + 1
      ∧ forward t dep params n.height n = close_window t dep params n (forward t dep params p.height p) := by
  obtain ⟨p, hp, hh, -⟩ := hl.get_parent hn h0
  refine ⟨p, hp, hh, ?_⟩
  rw [hh, forward, hp]

theorem rank_forward_below (h : t.Below a d) {n m : HeaderNode} (ha : t.get a = some n) (hd : t.get d = some m) :
    rank (forward t dep params n.height n) ≤ rank (forward t dep params m.height m) := by
  induction h generalizing m with
  | refl =>
    cases ha.symm.trans hd
    exact le_rfl
  | tail _ hp ih =>
    obtain ⟨l, hc, h0, rfl⟩ := HeaderTree.parent_eq_some.mp hp
    obtain ⟨m', hm', rfl⟩ := Option.map_eq_some_iff.mp hc
    cases hd.symm.trans hm'
    obtain ⟨p, hlp, -, hstep⟩ := @forward_step _ t hl dep params _ m hd h0
    rw [hstep]
    exact (ih hlp).trans (rank_close_window t dep params m _)

variable {m : HeaderNode} {final : Bip9State}

theorem forward_between (h : t.Below a d) (ha : t.get a = some n) (hd : t.get d = some m)
    (hw : (n.height + 1) % params.period = 0) (hlt : m.height < n.height + params.period) :
    forward t dep params m.height m = forward t dep params n.height n := by
  induction h generalizing m with
  | refl =>
    cases ha.symm.trans hd
    rfl
  | tail hb hp ih =>
    obtain ⟨l, hc, h0, rfl⟩ := HeaderTree.parent_eq_some.mp hp
    obtain ⟨m', hm', rfl⟩ := Option.map_eq_some_iff.mp hc
    cases hd.symm.trans hm'
    obtain ⟨p, hlp, hh, hstep⟩ := @forward_step _ t hl dep params _ m hd h0
    obtain ⟨n', hn', hle⟩ := HeaderTree.Below.get hl hb hlp
    cases ha.symm.trans hn'
    rw [hstep, close_window, if_neg]
    · exact ih hlp (by omega)
    · intro hm
      obtain ⟨q, hq⟩ := Nat.dvd_of_mod_eq_zero hw
      obtain ⟨r, hr⟩ := Nat.dvd_of_mod_eq_zero hm
      have h1 : params.period * q < params.period * r := by omega
      have h2 : params.period * r < params.period * (q + 1) := by rw [Nat.mul_succ]; omega
      have h3 := Nat.lt_of_mul_lt_mul_left h1
      have h4 := Nat.lt_of_mul_lt_mul_left h2
      omega

theorem forward_first (hn : t.get hash = some n) (hlt : n.height + 1 < params.period) :
    forward t dep params n.height n = .Defined := by
  have hmod : (n.height + 1) % params.period ≠ 0 := by
    rw [Nat.mod_eq_of_lt hlt]
    omega
  induction hh : n.height generalizing hash n with
  | zero =>
    rw [forward, close_window, if_neg hmod]
  | succ k ih =>
    obtain ⟨p, hp, hph, hstep⟩ := @forward_step _ t hl dep params _ n hn (by omega)
    rw [← hh, hstep, close_window, if_neg hmod]
    have hk : p.height = k := by omega
    rw [hk]
    apply ih hp (by omega) _ hk
    rw [Nat.mod_eq_of_lt (by omega)]
    omega

variable (hs : t.Skips)

include hs

theorem ancestor_back_spec (hn : t.get hash = some n) (back : ℕ) : (n.height < back ∧ ancestor_back t n back = none)
      ∨ ∃ a b, ancestor_back t n back = some b ∧ t.get a = some b ∧ t.Below a hash ∧ n.height = b.height + back := by
  unfold ancestor_back
  split
  · obtain ⟨a, b, hb, ha, hbelow, hh⟩ := HeaderTree.get_ancestor_spec hl hs hn (n.height - back)
    rw [hl.get_hash hn]
    exact Or.inr ⟨a, b, hb, ha, hbelow, by omega⟩
  · exact Or.inl ⟨by omega, rfl⟩

theorem aligned_spec {dep : Bip9Deployment} {params : VersionbitsParams} (hp : 0 < params.period)
    {hash : BlockHash} {n : HeaderNode} (hn : t.get hash = some n) :
    (n.height + 1 < params.period ∧ aligned t params n = none ∧ forward t dep params n.height n = .Defined)
      ∨ ∃ a b, aligned t params n = some b ∧ t.get a = some b ∧ t.Below a hash
        ∧ b.height + 1 = (n.height + 1) / params.period * params.period
        ∧ forward t dep params n.height n = forward t dep params b.height b := by
  have hdiv := Nat.div_add_mod' (n.height + 1) params.period
  have hmod := Nat.mod_lt (n.height + 1) hp
  rcases ancestor_back_spec hl hs hn ((n.height + 1) % params.period) with ⟨hlt, hnone⟩ | ⟨a, b, hb, ha, hbelow, hh⟩
  · have hq : (n.height + 1) / params.period = 0 := by
      by_contra hne
      have := Nat.mul_le_mul_right params.period (Nat.one_le_iff_ne_zero.mpr hne)
      omega
    have hfirst : n.height + 1 < params.period := (Nat.div_eq_zero_iff_lt hp).mp hq
    exact Or.inl ⟨hfirst, hnone, forward_first hl hn hfirst⟩
  · refine Or.inr ⟨a, b, hb, ha, hbelow, by omega, ?_⟩
    apply forward_between hl hbelow ha hn
    · have : b.height + 1 = (n.height + 1) / params.period * params.period := by omega
      rw [this, Nat.mul_mod_left]
    · omega

theorem forward_boundary (hp : 0 < params.period) (hn : t.get hash = some n)
    (hw : (n.height + 1) % params.period = 0) :
    forward t dep params n.height n = transition t dep params n
      (match ancestor_back t n params.period with
        | some b => forward t dep params b.height b
        | none => .Defined) := by
  by_cases h0 : n.height = 0
  · rcases ancestor_back_spec hl hs hn params.period with ⟨-, hnone⟩ | ⟨a, b, -, -, -, hh⟩
    · rw [h0, forward, close_window, if_pos hw, hnone]
    · omega
  · obtain ⟨p, hlp, hh, hstep⟩ := @forward_step _ t hl dep params _ n hn h0
    rw [hstep, close_window, if_pos hw]
    congr 1
    rcases ancestor_back_spec hl hs hn params.period with ⟨hlt, hnone⟩ | ⟨a, b, hb, ha, hbelow, hbh⟩
    · rw [hnone]
      exact forward_first hl hlp (by omega)
    rw [hb]
    have hab : t.Below a n.header.prev_block_hash := by
      rcases hbelow.cases_tail with rfl | ⟨x, hax, hx⟩
      · cases ha.symm.trans hn
        omega
      · obtain ⟨-, -, -, hpar⟩ := hl.get_parent hn h0
        have hxp : x = n.header.prev_block_hash := Option.some.inj (hx.symm.trans hpar)
        exact hxp ▸ hax
    apply forward_between hl hab ha hlp
    · have hsum : b.height + 1 + params.period = n.height + 1 := by omega
      rw [← Nat.add_mod_right, hsum, hw]
    · omega

variable (ht : t.Timed)

include ht

omit hs in
theorem forward_before_start (hn : t.get hash = some n) (hlt : mtp t n < dep.start_time) :
    forward t dep params n.height n = .Defined := by
  have hclose : ∀ {hash n}, t.get hash = some n → mtp t n < dep.start_time →
      close_window t dep params n .Defined = .Defined := by
    intro hash n _ hlt
    unfold close_window
    split
    · exact if_neg (by omega)
    · rfl
  induction hh : n.height generalizing hash n with
  | zero => exact hclose hn hlt
  | succ k ih =>
    obtain ⟨p, hp, hph, hstep⟩ := @forward_step _ t hl dep params _ n hn (by omega)
    have hlink : t.link hash = some n.link := by rw [HeaderTree.link, hn]; rfl
    have hlp : t.link n.header.prev_block_hash = some p.link := by rw [HeaderTree.link, hp]; rfl
    obtain ⟨p', hp', hle⟩ := HeaderTree.past_median_le ht hlink (by change n.height ≠ 0; omega)
    cases hlp.symm.trans hp'
    have hmtp : mtp t p ≤ mtp t n := by
      unfold mtp
      rw [hl.get_hash hp, hl.get_hash hn, HeaderTree.median_time_past_eq hp, HeaderTree.median_time_past_eq hn]
      exact Int.ofNat_le.mpr hle
    have hk : p.height = k := by omega
    rw [← hh, hstep, hk, ih hp (by omega) hk]
    exact hclose hn hlt

theorem to_compute_foldr (hp : 0 < params.period) {fuel : ℕ} (hn : t.get hash = some n)
    (hw : (n.height + 1) % params.period = 0) (hf : n.height + 1 ≤ fuel) :
    (to_compute t dep params fuel (some n)).foldr (transition t dep params) .Defined
      = forward t dep params n.height n := by
  induction fuel generalizing hash n with
  | zero => omega
  | succ fuel ih =>
    rw [to_compute]
    split
    · rename_i hlt
      exact (forward_before_start hl ht hn hlt).symm
    rw [List.foldr_cons, forward_boundary hl hs hp hn hw]
    congr 1
    rcases ancestor_back_spec hl hs hn params.period with ⟨-, hnone⟩ | ⟨a, b, hb, ha, -, hbh⟩
    · rw [hnone]
      cases fuel <;> rfl
    rw [hb]
    apply ih ha
    · have hsum : b.height + 1 + params.period = n.height + 1 := by omega
      rw [← Nat.add_mod_right, hsum, hw]
    · omega

theorem state_eq_forward (hp : 0 < params.period) (hn : t.get hash = some n) :
    state t (some hash) dep params = forward_state t dep params n := by
  unfold state forward_state
  split
  · rfl
  split
  · rfl
  rw [Option.bind_some, hn, Option.bind_some]
  rcases @aligned_spec _ t hl hs dep params hp _ n hn with ⟨-, hnone, hd⟩ | ⟨a, b, hb, ha, -, hbh, he⟩
  · rw [hnone, hd]
  · rw [hb, he]
    exact to_compute_foldr hl hs ht hp ha (by rw [hbh, Nat.mul_mod_left]) le_rfl

theorem state_same_window (hp : 0 < params.period) (h : t.Below a d) (ha : t.get a = some n) (hd : t.get d = some m)
    (hw : (n.height + 1) / params.period = (m.height + 1) / params.period) :
    state t (some a) dep params = state t (some d) dep params := by
  rw [state_eq_forward hl hs ht hp ha, state_eq_forward hl hs ht hp hd, forward_state, forward_state]
  suffices hf : forward t dep params n.height n = forward t dep params m.height m by rw [hf]
  rcases @aligned_spec _ t hl hs dep params hp _ n ha with ⟨hn, -, hnd⟩ | ⟨x, b, -, hx, hbx, hbh, hnf⟩
  · rcases @aligned_spec _ t hl hs dep params hp _ m hd with ⟨-, -, hmd⟩ | ⟨y, c, -, -, -, hch, -⟩
    · rw [hnd, hmd]
    · rw [← hw, Nat.div_eq_of_lt hn, Nat.zero_mul] at hch
      omega
  · rcases @aligned_spec _ t hl hs dep params hp _ m hd with ⟨hm, -, -⟩ | ⟨y, c, -, hy, hcy, hch, hmf⟩
    · rw [hw, Nat.div_eq_of_lt hm, Nat.zero_mul] at hbh
      omega
    · have hxy : x = y := HeaderTree.Below.unique hl (hbx.trans h) hcy hx hy (by rw [← hw] at hch; omega)
      subst hxy
      cases hx.symm.trans hy
      rw [hnf, hmf]

omit hs ht in
theorem forward_absorbing (hfinal : final = .Active ∨ final = .Failed) (h : t.Below a d) (ha : t.get a = some n)
    (hd : t.get d = some m) (hf : forward t dep params n.height n = final) :
    forward t dep params m.height m = final := by
  induction h generalizing m with
  | refl =>
    cases ha.symm.trans hd
    exact hf
  | tail _ hp ih =>
    obtain ⟨l, hc, h0, rfl⟩ := HeaderTree.parent_eq_some.mp hp
    obtain ⟨m', hm', rfl⟩ := Option.map_eq_some_iff.mp hc
    cases hd.symm.trans hm'
    obtain ⟨p, hlp, -, hstep⟩ := @forward_step _ t hl dep params _ m hd h0
    rw [hstep, ih hlp, close_window]
    rcases hfinal with rfl | rfl <;> split <;> rfl

theorem state_absorbing (hp : 0 < params.period) (hfinal : final = .Active ∨ final = .Failed) (h : t.Below a d)
    (hd : ∃ m, t.get d = some m) (hstate : state t (some a) dep params = final) :
    state t (some d) dep params = final := by
  obtain ⟨m, hm⟩ := hd
  obtain ⟨n, hn, -⟩ := HeaderTree.Below.get hl h hm
  rw [state_eq_forward hl hs ht hp hn] at hstate
  rw [state_eq_forward hl hs ht hp hm]
  unfold forward_state at hstate ⊢
  split
  · rename_i hs
    rwa [if_pos hs] at hstate
  rename_i hne
  rw [if_neg hne] at hstate
  split
  · rename_i hs
    rwa [if_pos hs] at hstate
  · rename_i hne'
    rw [if_neg hne'] at hstate
    exact forward_absorbing hl hfinal h hn hm hstate

theorem since_walk_spec (hp : 0 < params.period) (hal : dep.start_time ≠ BIP9_ALWAYS_ACTIVE)
    (hnv : dep.start_time ≠ BIP9_NEVER_ACTIVE) {initial : Bip9State} {fuel : ℕ} (hn : t.get hash = some n)
    (hw : (n.height + 1) % params.period = 0) (hf : n.height ≤ fuel) (hi : forward t dep params n.height n = initial)
    :
    ∃ a b, since_walk t dep params initial fuel n = b ∧ t.get a = some b ∧ t.Below a hash
      ∧ (b.height + 1) % params.period = 0 ∧ forward t dep params b.height b = initial
      ∧ ∀ c, ancestor_back t b params.period = some c → forward t dep params c.height c ≠ initial := by
  induction fuel generalizing hash n with
  | zero =>
    refine ⟨hash, n, rfl, hn, Relation.ReflTransGen.refl, hw, hi, ?_⟩
    intro c hc
    rcases ancestor_back_spec hl hs hn params.period with ⟨-, hnone⟩ | ⟨a, b, -, -, -, hh⟩
    · rw [hnone] at hc
      cases hc
    · omega
  | succ fuel ih =>
    rw [since_walk]
    rcases ancestor_back_spec hl hs hn params.period with ⟨-, hnone⟩ | ⟨a, b, hb, ha, hbelow, hh⟩
    · rw [hnone]
      refine ⟨hash, n, rfl, hn, Relation.ReflTransGen.refl, hw, hi, ?_⟩
      intro c hc
      rw [hnone] at hc
      cases hc
    · have hstate : state t (some b.hash) dep params = forward t dep params b.height b := by
        rw [hl.get_hash ha, state_eq_forward hl hs ht hp ha, forward_state, if_neg hal, if_neg hnv]
      rw [hb]
      dsimp only
      rw [hstate]
      split
      · rename_i hne
        refine ⟨hash, n, rfl, hn, Relation.ReflTransGen.refl, hw, hi, ?_⟩
        intro c hc
        cases hb.symm.trans hc
        exact hne
      · rename_i heq
        rw [ne_eq, not_not] at heq
        have hwb : (b.height + 1) % params.period = 0 := by
          have hsum : b.height + 1 + params.period = n.height + 1 := by omega
          rw [← Nat.add_mod_right, hsum, hw]
        obtain ⟨x, c, hc, hx, hxb, hrest⟩ := ih ha hwb (by omega) heq
        exact ⟨x, c, hc, hx, hxb.trans hbelow, hrest⟩

theorem governing_eq {dep : Bip9Deployment} {params : VersionbitsParams} (hp : 0 < params.period)
    {hash : BlockHash} {n : HeaderNode} (hn : t.get hash = some n) {height : ℕ} (h0 : height ≠ 0)
    (hle : height ≤ n.height + 1) : ∃ a b, t.get a = some b ∧ t.Below a hash ∧ b.height + 1 = height
      ∧ governing t dep params hash height = forward_state t dep params b := by
  obtain ⟨a, b, hb, ha, hbelow, hh⟩ := HeaderTree.get_ancestor_spec hl hs hn (height - 1)
  refine ⟨a, b, ha, hbelow, by omega, ?_⟩
  rw [governing, if_neg h0, hb, Option.map_some, hl.get_hash ha, state_eq_forward hl hs ht hp ha]

def RunStart (t : HeaderTree) (dep : Bip9Deployment) (params : VersionbitsParams) (hash : BlockHash) (tip since : ℕ) :
    Prop :=
  since ≤ tip
    ∧ (∀ height, since ≤ height → height ≤ tip → governing t dep params hash height = state t (some hash) dep params)
    ∧ (since ≠ 0 → governing t dep params hash (since - 1) ≠ state t (some hash) dep params)

theorem state_since_spec (hp : 0 < params.period) (hn : t.get hash = some n) :
    RunStart t dep params hash (n.height + 1) (state_since t (some hash) dep params) := by
  unfold state_since
  split
  · rename_i hs
    refine ⟨by omega, ?_, fun h => absurd rfl h⟩
    intro height _ _
    unfold governing state
    rcases hs with hs | hs
    · rw [if_pos hs, if_pos hs]
    · have hne : dep.start_time ≠ BIP9_ALWAYS_ACTIVE := by rw [hs]; decide
      rw [if_neg hne, if_neg hne, if_pos hs, if_pos hs]
  · rename_i hsent
    rw [not_or] at hsent
    obtain ⟨hal, hnv⟩ := hsent
    have hstate : ∀ {h m}, t.get h = some m → forward_state t dep params m = forward t dep params m.height m := by
      intro h m _
      rw [forward_state, if_neg hal, if_neg hnv]
    have hnone : state t none dep params = .Defined := by
      rw [state, if_neg hal, if_neg hnv]
      rfl
    rw [RunStart, state_eq_forward hl hs ht hp hn, hstate hn]
    dsimp only
    split
    · rename_i hd
      refine ⟨by omega, ?_, fun h => absurd rfl h⟩
      intro height _ hle
      by_cases h0 : height = 0
      · rw [h0, governing, if_pos rfl, hnone, hd]
      obtain ⟨a, b, ha, hbelow, -, hg⟩ := @governing_eq _ t hl hs ht dep params hp _ n hn height h0 hle
      rw [hg, hstate ha]
      have hrank := @rank_forward_below _ t hl dep params _ _ hbelow b n ha hn
      rw [hd] at hrank ⊢
      exact rank_inj (Nat.le_zero.mp hrank)
    · rename_i hd
      rw [Option.bind_some, hn, Option.bind_some]
      rcases @aligned_spec _ t hl hs dep params hp _ n hn with ⟨-, -, hdef⟩ | ⟨x, first, hfirst, hx, hxb, hxh, hxf⟩
      · exact absurd hdef hd
      rw [hfirst]
      dsimp only
      have hwx : (first.height + 1) % params.period = 0 := by rw [hxh, Nat.mul_mod_left]
      obtain ⟨y, c, hc, hy, hyx, hwy, hyf, hprev⟩ :=
        since_walk_spec hl hs ht hp hal hnv hx hwx (le_refl first.height) hxf.symm
      rw [hc]
      have hyb : t.Below y hash := hyx.trans hxb
      obtain ⟨c', hc', hch⟩ := HeaderTree.Below.get hl hyb hn
      cases hy.symm.trans hc'
      refine ⟨by omega, ?_, ?_⟩
      · intro height hge hle
        obtain ⟨a, b, ha, hbelow, hbh, hg⟩ := @governing_eq _ t hl hs ht dep params hp _ n hn height (by omega) hle
        rw [hg, hstate ha]
        have hya : t.Below y a := by
          rcases Forest.Below.linear (F := hl.forest) hyb hbelow with h | h
          · exact h
          obtain ⟨b', hb', hle'⟩ := HeaderTree.Below.get hl h hy
          cases ha.symm.trans hb'
          have hay : a = y := HeaderTree.Below.unique hl hbelow hyb ha hy (by omega)
          rw [hay]
          exact Relation.ReflTransGen.refl
        have hlow := @rank_forward_below _ t hl dep params _ _ hya c b hy ha
        have hhigh := @rank_forward_below _ t hl dep params _ _ hbelow b n ha hn
        rw [hyf] at hlow
        exact rank_inj (le_antisymm hhigh hlow)
      · intro _
        rw [Nat.add_sub_cancel]
        by_cases h0 : c.height = 0
        · rw [h0, governing, if_pos rfl, hnone]
          exact fun he => hd he.symm
        obtain ⟨a, b, ha, hbelow, hbh, hg⟩ :=
          @governing_eq _ t hl hs ht dep params hp _ n hn c.height h0 (by omega)
        rw [hg, hstate ha]
        rcases ancestor_back_spec hl hs hy params.period with ⟨hlt, -⟩ | ⟨z, e, he, hz, hzb, hzh⟩
        · rw [forward_first hl ha (by omega)]
          exact fun hd' => hd hd'.symm
        have hza : t.Below z a := by
          rcases Forest.Below.linear (F := hl.forest) (hzb.trans hyb) hbelow with h | h
          · exact h
          obtain ⟨b', hb', hle'⟩ := HeaderTree.Below.get hl h hz
          cases ha.symm.trans hb'
          have haz : a = z := HeaderTree.Below.unique hl hbelow (hzb.trans hyb) ha hz (by omega)
          rw [haz]
          exact Relation.ReflTransGen.refl
        rw [forward_between hl hza hz ha _ (by omega)]
        · exact hprev e he
        · have hsum : e.height + 1 + params.period = c.height + 1 := by omega
          rw [← Nat.add_mod_right, hsum, hwy]

end

theorem bip9_forward {params : VersionbitsParams} {t : HeaderTree}
    (h : HeaderTree.Reachable params.toParams t) (hroot : t.get params.genesis_header.prev_block_hash = none)
    (hperiod : 0 < params.period) (dep : Bip9Deployment) :
    (∀ hash n, t.get hash = some n → state t (some hash) dep params = forward_state t dep params n)
      ∧ (∀ a d n m, t.Below a d → t.get a = some n → t.get d = some m →
        (n.height + 1) / params.period = (m.height + 1) / params.period →
        state t (some a) dep params = state t (some d) dep params)
      ∧ (∀ a d final, final = .Active ∨ final = .Failed → t.Below a d → (∃ m, t.get d = some m) →
        state t (some a) dep params = final → state t (some d) dep params = final)
      ∧ ∀ hash n, t.get hash = some n →
        RunStart t dep params hash (n.height + 1) (state_since t (some hash) dep params) := by
  obtain ⟨hl, hs⟩ := h.skips
  have ht : t.Timed := h.timed.2 (by rw [HeaderTree.Rooted, h.params_eq]; exact hroot)
  refine ⟨?_, ?_, ?_, ?_⟩
  · intro hash n hn
    exact state_eq_forward hl hs ht hperiod hn
  · intro a d n m hb hn hm hw
    exact state_same_window hl hs ht hperiod hb hn hm hw
  · intro a d final hfinal hb hd hstate
    exact state_absorbing hl hs ht hperiod hfinal hb hd hstate
  · intro hash n hn
    exact state_since_spec hl hs ht hperiod hn

end

section

attribute [local instance] Platform.sample

def sample_versionbits : VersionbitsParams :=
  { sample_params with pow_target_timespan := 1200, rule_change_activation_threshold := 1 }

def sample_deployment : Bip9Deployment := ⟨28, 0, 1000, 0⟩

def signalling_header (prev : BlockHash) (nonce : ℕ) : BlockHeader :=
  { sample_header prev nonce 7 with version := 0x30000000 }

def sample_windows : HeaderTree :=
  [signalling_header 1 2, signalling_header 2 3, signalling_header 3 4].foldl
    (fun t header => (t.insert header 100).2)
    (.new sample_versionbits.toParams)

theorem bip9_forward_windows : ∃ n, sample_windows.get 4 = some n
    ∧ state sample_windows (some 4) sample_deployment sample_versionbits
      = forward_state sample_windows sample_deployment sample_versionbits n
    ∧ RunStart sample_windows sample_deployment sample_versionbits 4 (n.height + 1)
      (state_since sample_windows (some 4) sample_deployment sample_versionbits) := by
  have hsome : (sample_windows.get 4).isSome := by decide
  obtain ⟨n, hn⟩ := Option.isSome_iff_exists.mp hsome
  obtain ⟨hstate, -, -, hsince⟩ := @bip9_forward _ sample_versionbits sample_windows
    (.insert _ _ (.insert _ _ (.insert _ _ .new))) (by decide) (by decide) sample_deployment
  exact ⟨n, hn, hstate 4 n hn, hsince 4 n hn⟩

example : state sample_windows (some 4) sample_deployment sample_versionbits = .LockedIn
    ∧ state_since sample_windows (some 4) sample_deployment sample_versionbits = 4 := by decide

end

end Bip9

end AvilaNode
