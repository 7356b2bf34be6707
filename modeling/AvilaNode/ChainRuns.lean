import AvilaNode.BlockSteps
import AvilaNode.Supply

/-! A coins set under blocks that are connected and disconnected: what it shows depends on the blocks that stand
alone, and their subsidies bound it. -/

namespace AvilaNode

open Layers Ledger UtxoSet Relation

section

variable [Platform]

structure Frame where
  block : Block
  undo : BlockUndo

/-- The coins after these blocks, the last first, the lowest of them above `base`. -/
def replay (base : ℕ) (v : View OutPoint Coin) : List Block → View OutPoint Coin
  | [] => v
  | block :: below => after_txs (base + below.length + 1) block.transactions (replay base v below)

inductive ChainStep (params : Params) (base : ℕ) : UtxoSet × List Frame → UtxoSet × List Frame → Prop
  | still {s t : UtxoSet} {stack : List Frame} (ok : Ok t) (view : t.get = s.get) :
      ChainStep params base (s, stack) (t, stack)
  | connect {s t : UtxoSet} {stack : List Frame} {block : Block} {ctx : ConnectContext} {undo : BlockUndo}
      {pending : Option (List QueuedCheck)} {record : BlockReceipt} (network : ctx.params = params)
      (above : context_height ctx = base + stack.length + 1) (checked : check_block block params = .ok ())
      (ran : connect_block_inner block s ctx = (.ok (undo, pending, record), t)) :
      ChainStep params base (s, stack) (t, ⟨block, undo⟩ :: stack)
  | disconnect {s t : UtxoSet} {frame : Frame} {stack : List Frame}
      (ran : disconnect_block frame.block s frame.undo = (.ok (), t)) :
      ChainStep params base (s, frame :: stack) (t, stack)

abbrev ChainRun (params : Params) (base : ℕ) : UtxoSet × List Frame → UtxoSet × List Frame → Prop :=
  ReflTransGen (ChainStep params base)

variable {params : Params} {base : ℕ} {v : View OutPoint Coin} {s t : UtxoSet} {stack below : List Frame}
  {frame : Frame} {block : Block} {ctx : ConnectContext} {undo : BlockUndo} {pending : Option (List QueuedCheck)}
  {record : BlockReceipt}

theorem connect_inner_mints (hs : Ok s) (hv : InRange s.get) (hb : BlockChecked block)
    (hin : connect_block_inner block s ctx = (.ok (undo, pending, record), t)) :
    supply t.get ≤ supply s.get + block_subsidy (context_height ctx) ctx.params := by
  obtain ⟨env, st, ⟨mtp, hpos, henv⟩, hpre, rfl, hfin⟩ := connect_inner_ok hs hin
  have hh : context_height ctx = env.height := by simp [context_height, hpos]
  have hparams : env.ctx.params = ctx.params := by rw [henv]; rfl
  obtain ⟨coinbase, hhead, hreward⟩ := finish_block_ok hfin
  obtain ⟨coinbase', hhead', hminted⟩ := minted_block hb
  obtain rfl : coinbase = coinbase' := Option.some.inj (hhead.symm.trans hhead')
  obtain ⟨hfees, hsum, -⟩ := paidAll_fees hpre.paid (by decide)
  have hrange : money_range st.fees = true := by
    rw [hsum]
    exact hfees _ (List.prefix_refl _)
  obtain ⟨hsat, -⟩ := saturating_add_le hrange (block_subsidy_bounds env.height ctx.params)
  rw [hparams, hsat] at hreward
  have hrun := supply_run hs.finite hv hb.txs hpre.paid (by decide)
  rw [← hpre.view, hminted] at hrun
  rw [hh]
  omega

theorem InRange.after_txs {txs : List Transaction} (h : InRange v) (ht : ∀ tx ∈ txs, TxChecked tx) (height : ℕ) :
    InRange (after_txs height txs v) := by
  induction txs generalizing v with
  | nil => exact h
  | cons tx txs ih =>
    exact ih (h.after (ht tx List.mem_cons_self) height) fun a ha => ht a (List.mem_cons_of_mem _ ha)

/-- What a block that stands was checked for and left behind when it was connected. -/
structure Framed (params : Params) (base : ℕ) (v : View OutPoint Coin) (frame : Frame) (below : List Frame) :
    Prop where
  checked : BlockChecked frame.block
  length : frame.undo.txs.length = frame.block.transactions.length
  records : RecordsAll (replay base v (below.map Frame.block))
    (tx_steps (base + below.length + 1) frame.block.transactions frame.undo.txs)
  mints : InRange v → supply (replay base v ((frame :: below).map Frame.block)) ≤
    supply (replay base v (below.map Frame.block)) + block_subsidy (base + below.length + 1) params

def Stacked (params : Params) (base : ℕ) (v : View OutPoint Coin) : List Frame → Prop
  | [] => True
  | frame :: below => Framed params base v frame below ∧ Stacked params base v below

structure Standing (params : Params) (base : ℕ) (v : View OutPoint Coin) (p : UtxoSet × List Frame) : Prop where
  ok : Ok p.1
  view : p.1.get = replay base v (p.2.map Frame.block)
  stacked : Stacked params base v p.2

theorem replay_cons (base : ℕ) (v : View OutPoint Coin) (frame : Frame) (below : List Frame) :
    replay base v ((frame :: below).map Frame.block) =
      after_txs (base + below.length + 1) frame.block.transactions (replay base v (below.map Frame.block)) := by
  rw [List.map_cons, replay, List.length_map]

theorem Stacked.range (h : Stacked params base v stack) (hv : InRange v) :
    InRange (replay base v (stack.map Frame.block)) := by
  induction stack with
  | nil => exact hv
  | cons frame below ih =>
    rw [replay_cons]
    exact (ih h.2).after_txs h.1.checked.txs _

theorem Standing.top (h : Standing params base v (s, frame :: stack)) : ∃ t,
    disconnect_block frame.block s frame.undo = (.ok (), t) ∧ Standing params base v (t, stack) := by
  obtain ⟨hframe, hbelow⟩ := h.stacked
  obtain ⟨hok, hundone⟩ :=
    disconnect_txs_view (base + stack.length + 1) frame.block.transactions frame.undo.txs h.ok
  refine ⟨_, if_neg fun hne => hne hframe.length, hok, ?_, hbelow⟩
  rw [hundone, h.view, replay_cons, ← after_steps _ _ _ hframe.length, hframe.records.back_after]

theorem ChainStep.standing {p q : UtxoSet × List Frame} (h : ChainStep params base p q)
    (hp : Standing params base v p) : Standing params base v q := by
  cases h with
  | still ok view => exact ⟨ok, view.trans hp.view, hp.stacked⟩
  | @connect s t stack block ctx undo pending record network above checked ran =>
    have hstep := connect_inner_steps hp.ok ran
    have hview : t.get = replay base v ((⟨block, undo⟩ :: stack : List Frame).map Frame.block) := by
      rw [hstep.view, replay_cons, above]
      exact congrArg _ hp.view
    refine ⟨hstep.ok, hview, ⟨check_block_ok checked, hstep.length, ?_, fun hv => ?_⟩, hp.stacked⟩
    · rw [← above, ← hp.view]
      exact hstep.records
    · have hrange : InRange s.get := hp.view ▸ hp.stacked.range hv
      have hmint := connect_inner_mints hp.ok hrange (check_block_ok checked) ran
      rwa [hview, hp.view, above, network] at hmint
  | disconnect ran =>
    obtain ⟨u, hu, hstand⟩ := hp.top
    rw [hu] at ran
    cases ran
    exact hstand

theorem Standing.start (hs : Ok s) : Standing params base s.get (s, []) := ⟨hs, rfl, trivial⟩

theorem ChainRun.standing {p q : UtxoSet × List Frame} (h : ChainRun params base p q)
    (hp : Standing params base v p) : Standing params base v q := by
  induction h with
  | refl => exact hp
  | tail _ hstep ih => exact hstep.standing ih

/-- Whatever blocks came and went, the coins are those of the blocks that stand, and the top one comes off. -/
theorem reorganized_alike (hs : Reachable s) (h : ChainRun params base (s, []) (t, stack)) :
    t.get = replay base s.get (stack.map Frame.block) ∧
      ∀ frame below, stack = frame :: below → ∃ u, disconnect_block frame.block t frame.undo = (.ok (), u) ∧
        u.get = replay base s.get (below.map Frame.block) := by
  have hstand := h.standing (.start hs.ok)
  refine ⟨hstand.view, ?_⟩
  rintro frame below rfl
  obtain ⟨u, hu, hbelow⟩ := hstand.top
  exact ⟨u, hu, hbelow.view⟩

theorem Stacked.supply_le (h : Stacked params base v stack) (hv : InRange v) :
    supply (replay base v (stack.map Frame.block)) ≤
      supply v + ∑ i ∈ Finset.range stack.length, block_subsidy (base + i + 1) params := by
  induction stack with
  | nil => simp [replay]
  | cons frame below ih =>
    have hbelow := ih h.2
    have hmint := h.1.mints hv
    rw [List.length_cons, Finset.sum_range_succ]
    omega

def era_subsidy (era : ℕ) : ℕ := if 64 ≤ era then 0 else 5000000000 >>> era

omit [Platform] in
theorem subsidies_le (h : params.subsidy_halving_interval = 210000) (base n : ℕ) :
    ∑ i ∈ Finset.range n, block_subsidy (base + i + 1) params ≤ MAX_MONEY := by
  have heras (eras : ℕ) : ∑ height ∈ Finset.range (210000 * eras), era_subsidy (height / 210000) =
      210000 * ∑ era ∈ Finset.range eras, era_subsidy era := by
    induction eras with
    | zero => rfl
    | succ eras ih =>
      have hlast : ∑ i ∈ Finset.range 210000, era_subsidy ((210000 * eras + i) / 210000) =
          210000 * era_subsidy eras := by
        rw [Finset.sum_congr rfl fun i hi => ?_, Finset.sum_const, Finset.card_range, smul_eq_mul]
        have := Finset.mem_range.mp hi
        congr 1
        omega
      rw [Nat.mul_succ, Finset.sum_range_add, ih, hlast, Finset.sum_range_succ, Nat.mul_add]
  have hall : ∑ height ∈ Finset.range (base + 1 + n), era_subsidy (height / 210000) ≤
      ∑ height ∈ Finset.range (210000 * 64), era_subsidy (height / 210000) := by
    refine Finset.sum_le_sum_of_ne_zero fun height _ hpays => Finset.mem_range.mpr ?_
    by_contra hlate
    exact hpays (if_pos (by omega))
  have hthese : ∑ i ∈ Finset.range n, era_subsidy ((base + 1 + i) / 210000) ≤ 2100000000000000 := by
    have htotal : 210000 * ∑ era ∈ Finset.range 64, era_subsidy era ≤ 2100000000000000 := by decide +kernel
    rw [Finset.sum_range_add, heras] at hall
    omega
  have hcast : ∑ i ∈ Finset.range n, block_subsidy (base + i + 1) params =
      (∑ i ∈ Finset.range n, era_subsidy ((base + 1 + i) / 210000) : ℕ) := by
    rw [Nat.cast_sum]
    refine Finset.sum_congr rfl fun i _ => ?_
    rw [block_subsidy, h, era_subsidy, Nat.add_right_comm]
    split <;> rfl
  rw [hcast, MAX_MONEY]
  exact_mod_cast hthese

/-- However the chain was reorganized, what the coins come to is bounded by the subsidies of the heights that stand. -/
theorem supply_capped (hs : Reachable s) (hv : InRange s.get) (h : ChainRun params base (s, []) (t, stack)) :
    InRange t.get ∧ supply t.get ≤
        supply s.get + ∑ i ∈ Finset.range stack.length, block_subsidy (base + i + 1) params ∧
      (params.subsidy_halving_interval = 210000 → supply t.get ≤ supply s.get + MAX_MONEY) := by
  obtain ⟨-, hview, hstacked⟩ := h.standing (.start hs.ok)
  dsimp only at hview hstacked
  have hsum := hstacked.supply_le hv
  rw [hview]
  refine ⟨hstacked.range hv, hsum, fun hhalving => ?_⟩
  have := subsidies_le hhalving base stack.length
  omega

end

section

attribute [local instance] Platform.sample

def sample_frame : Frame := ⟨sample_block, ⟨[⟨[], []⟩, ⟨[sample_coin], []⟩]⟩⟩

theorem sample_run : ∃ t, ChainRun sample_params 0 (sample_set, []) (t, [sample_frame]) := by
  obtain ⟨pending, record, hin⟩ := connect_block_ok sample_connects
  exact ⟨_, .single (.connect rfl (by decide) (by decide +kernel) hin)⟩

theorem reorganized_alike_spend : ∃ t u, t.get = replay 0 sample_set.get [sample_block] ∧
    disconnect_block sample_block t sample_frame.undo = (.ok (), u) ∧ u.get = sample_set.get := by
  obtain ⟨t, hrun⟩ := sample_run
  obtain ⟨hview, htop⟩ := reorganized_alike sample_set_reachable hrun
  obtain ⟨u, hu, hback⟩ := htop sample_frame [] rfl
  exact ⟨t, u, hview, hu, hback⟩

theorem supply_capped_spend : ∃ t, ChainRun sample_params 0 (sample_set, []) (t, [sample_frame]) ∧
    supply t.get ≤ supply sample_set.get + MAX_MONEY := by
  obtain ⟨t, hrun⟩ := sample_run
  exact ⟨t, hrun, (supply_capped sample_set_reachable sample_set_range hrun).2.2 rfl⟩

end

end AvilaNode
