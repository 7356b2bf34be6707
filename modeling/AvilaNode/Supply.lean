import AvilaNode.ConnectBlock

/-! Connecting a block adds at most the subsidy to the visible coins. -/

namespace AvilaNode

open Layers Ledger UtxoSet

def Coin.value (coin : Coin) : ℤ := coin.out.value

def Fits (values : List ℤ) : Prop := ∀ pre, pre <+: values → i64_fits pre.sum = true

theorem fits_of_range {total : ℤ} (h : money_range total = true) : i64_fits total = true := by
  rw [money_range_iff, MAX_MONEY] at h
  rw [i64_fits_iff, I64_MIN, I64_MAX]
  omega

variable {values : List ℤ}

theorem sum_of_prefix_le {pre : List ℤ} (h : pre <+: values) (hv : ∀ v ∈ values, 0 ≤ v) :
    0 ≤ pre.sum ∧ pre.sum ≤ values.sum := by
  obtain ⟨rest, rfl⟩ := h
  have h1 : 0 ≤ pre.sum := List.sum_nonneg fun v hm => hv v (List.mem_append_left _ hm)
  have h2 : 0 ≤ rest.sum := List.sum_nonneg fun v hm => hv v (List.mem_append_right _ hm)
  rw [List.sum_append]
  constructor <;> omega

theorem fits_of_total (hv : ∀ v ∈ values, 0 ≤ v) (ht : values.sum ≤ MAX_MONEY) : Fits values := by
  intro pre hp
  obtain ⟨h0, h1⟩ := sum_of_prefix_le hp hv
  exact fits_of_range (money_range_iff.mpr ⟨h0, by omega⟩)

theorem checked_sum_of_total {total : ℤ} (h0 : 0 ≤ total) (hv : ∀ v ∈ values, 0 ≤ v)
    (ht : total + values.sum ≤ MAX_MONEY) : checked_sum total values = some (total + values.sum) := by
  induction values generalizing total with
  | nil => simp [checked_sum]
  | cons value values ih =>
    rw [List.sum_cons] at ht
    have hvalue := hv value List.mem_cons_self
    have hrest : 0 ≤ values.sum := List.sum_nonneg fun v hm => hv v (List.mem_cons_of_mem _ hm)
    have hadd : checked_add total value = some (total + value) :=
      checked_add_of_fits (fits_of_range (money_range_iff.mpr ⟨by omega, by omega⟩))
    rw [checked_sum, hadd]
    dsimp only
    rw [ih (by omega) (fun v hm => hv v (List.mem_cons_of_mem _ hm)) (by omega), List.sum_cons, add_assoc]

theorem check_coins_ok {spend_height : ℕ} {coins : List Coin} {value_in total : ℤ}
    (h : check_coins spend_height value_in coins = .ok total) (h0 : money_range value_in = true) :
    total = value_in + (coins.map Coin.value).sum ∧ money_range total = true ∧
      ∀ coin ∈ coins, money_range coin.value = true := by
  induction coins generalizing value_in with
  | nil =>
    cases h
    simp [h0]
  | cons coin coins ih =>
    rw [check_coins] at h
    split at h
    · cases h
    · cases ha : checked_add value_in coin.out.value with
      | none => simp [ha] at h
      | some next =>
        rw [ha] at h
        dsimp only at h
        split at h
        · cases h
        rename_i hr
        obtain ⟨hcoin, hnext⟩ : money_range coin.out.value = true ∧ money_range next = true := by
          simpa using hr
        obtain ⟨hsum, htotal, hall⟩ := ih h hnext
        have hadd := (checked_add_eq_some.mp ha).2
        refine ⟨?_, htotal, ?_⟩
        · rw [hsum, ← hadd, List.map_cons, List.sum_cons, Coin.value, add_assoc]
        · intro c hc
          rcases List.mem_cons.mp hc with rfl | hc
          · exact hcoin
          · exact hall c hc

def tx_value_in (undo : TxUndo) : ℤ := (undo.spent.map Coin.value).sum

def tx_value_out (tx : Transaction) : ℤ := (tx.outputs.map TxOut.value).sum

variable {v : View OutPoint Coin} {tx : Transaction}

theorem check_values_ok {height : ℕ} {spent : List Coin} {fee : ℤ} (h : check_values tx height spent = .ok fee) :
    fee = (spent.map Coin.value).sum - tx_value_out tx ∧ (spent.map Coin.value).sum ≤ MAX_MONEY ∧
      ∀ coin ∈ spent, money_range coin.value = true := by
  unfold check_values at h
  cases hc : check_coins height 0 spent with
  | error e => simp [hc] at h
  | ok value_in =>
    obtain ⟨hin, hrange, hall⟩ := check_coins_ok hc (by decide)
    rw [hc] at h
    dsimp only at h
    split at h
    · cases h
    rename_i value_out hs
    have hout := checked_sum_eq hs
    rw [money_range_iff] at hrange
    split at h
    · cases h
    split at h
    · cases h
    · cases h
      refine ⟨?_, by omega, hall⟩
      rw [tx_value_out]
      omega

def tx_fee (tx : Transaction) (undo : TxUndo) : ℤ :=
  if tx.is_coinbase then 0 else tx_value_in undo - tx_value_out tx

def block_fees (txs : List Transaction) (undos : List TxUndo) : List ℤ :=
  (txs.zip undos).map fun q => tx_fee q.1 q.2

structure SumsFit (block : Block) (undo : BlockUndo) (subsidy : ℤ) : Prop where
  inputs : ∀ u ∈ undo.txs, Fits (u.spent.map Coin.value)
  outputs : ∀ tx ∈ block.transactions, Fits (tx.outputs.map TxOut.value)
  fees : Fits (block_fees block.transactions undo.txs)
  reward : i64_fits ((block_fees block.transactions undo.txs).sum + subsidy) = true

theorem paid_fee {height : ℕ} {undo : TxUndo} {fees fees' : ℤ} (h : Paid v height tx undo.spent fees fees')
    (h0 : money_range fees = true) :
    fees' = fees + tx_fee tx undo ∧ money_range fees' = true ∧ Fits (undo.spent.map Coin.value) := by
  unfold Paid at h
  unfold tx_fee
  split at h
  · rename_i hcb
    rw [if_pos hcb, h.1, h.2]
    refine ⟨by omega, h0, fits_of_total ?_ ?_⟩ <;> simp [MAX_MONEY]
  · rename_i hcb
    obtain ⟨-, fee, hv, rfl, hr⟩ := h
    obtain ⟨hfee, hmax, hall⟩ := check_values_ok hv
    rw [if_neg hcb, tx_value_in, ← hfee]
    refine ⟨rfl, hr, fits_of_total ?_ hmax⟩
    intro x hx
    obtain ⟨c, hc, rfl⟩ := List.mem_map.mp hx
    exact (money_range_iff.mp (hall c hc)).1

theorem created_sum_le (txid : Txid) (coinbase : Bool) (height vout : ℕ) {outs : List TxOut}
    (h : ∀ o ∈ outs, money_range o.value = true) :
    ((created txid coinbase height vout outs).map fun e => e.2.value).sum ≤ (outs.map TxOut.value).sum := by
  induction outs generalizing vout with
  | nil => exact le_refl _
  | cons out outs ih =>
    have hout := (money_range_iff.mp (h out List.mem_cons_self)).1
    have hrest := ih (vout + 1) fun o ho => h o (List.mem_cons_of_mem _ ho)
    rw [created]
    split
    · rw [List.map_cons, List.sum_cons]
      omega
    · rw [List.map_cons, List.map_cons, List.sum_cons, List.sum_cons]
      exact Int.add_le_add_left hrest _

def InRange (v : View OutPoint Coin) : Prop := ∀ op c, v op = some c → money_range c.value = true

theorem InRange.taken (h : InRange v) (step : Step OutPoint Coin) :
    InRange (step.taken v) := by
  apply writeAll_values h
  intro e he c hc
  obtain ⟨k, -, rfl⟩ := List.mem_map.mp he
  cases hc

noncomputable def supply (v : View OutPoint Coin) : ℤ := total Coin.value v

def minted (tx : Transaction) : ℤ := if tx.is_coinbase then tx_value_out tx else 0

theorem minted_block {block : Block} (h : BlockChecked block) : ∃ coinbase,
    block.transactions.head? = some coinbase ∧ (block.transactions.map minted).sum = tx_value_out coinbase := by
  obtain ⟨coinbase, txs, hb, hcb, hrest⟩ := h.coinbase_first
  refine ⟨coinbase, by rw [hb]; rfl, ?_⟩
  have hzero : (txs.map minted).sum = 0 := by
    apply List.sum_eq_zero
    intro x hx
    obtain ⟨tx, htx, rfl⟩ := List.mem_map.mp hx
    simp [minted, hrest tx htx]
  rw [hb, List.map_cons, List.sum_cons, hzero, minted, if_pos hcb, add_zero]

theorem outputs_nonneg (h : TxChecked tx) : ∀ v ∈ tx.outputs.map TxOut.value, 0 ≤ v := by
  intro v hv
  obtain ⟨o, ho, rfl⟩ := List.mem_map.mp hv
  exact (money_range_iff.mp (h.outputs_range o ho)).1

theorem committed_finite (s : UtxoSet) : FiniteSupport s.committed := by
  unfold committed FiniteSupport
  cases s.flat with
  | some f => exact finite_lookup f
  | none =>
    cases s.backend with
    | some be => exact finite_lookup be.coins
    | none =>
      cases s.snapshot with
      | some run => exact finite_lookup run
      | none => simp

theorem saturating_add_le {a b : ℤ} (ha : money_range a = true) (hb : 0 ≤ b ∧ b ≤ 5000000000) :
    saturating_add a b = a + b ∧ i64_fits (a + b) = true := by
  rw [money_range_iff, MAX_MONEY] at ha
  rw [i64_fits_iff]
  unfold saturating_add I64_MIN I64_MAX
  omega

section

variable [Platform]

variable {height : ℕ} {fees fees' : ℤ} {block : Block}

variable {txs : List Transaction} {undos : List TxUndo}

theorem paidAll_fees (h : PaidAll height v fees txs undos fees') (h0 : money_range fees = true) :
    (∀ pre, pre <+: block_fees txs undos → money_range (fees + pre.sum) = true) ∧
      fees' = fees + (block_fees txs undos).sum ∧ ∀ u ∈ undos, Fits (u.spent.map Coin.value) := by
  induction txs generalizing v fees undos with
  | nil =>
    cases undos with
    | nil =>
      obtain rfl : fees' = fees := h
      refine ⟨fun pre hp => ?_, by simp [block_fees], fun _ hu => by cases hu⟩
      obtain rfl : pre = [] := List.prefix_nil.mp hp
      simpa using h0
    | cons u us => exact h.elim
  | cons tx txs ih =>
    cases undos with
    | nil => exact h.elim
    | cons u us =>
      obtain ⟨next, hp, hrest⟩ := h
      obtain ⟨hnext, hr, hu⟩ := paid_fee hp h0
      obtain ⟨hpre, hsum, hus⟩ := ih hrest hr
      have hcons : block_fees (tx :: txs) (u :: us) = tx_fee tx u :: block_fees txs us := rfl
      rw [hcons]
      refine ⟨?_, ?_, ?_⟩
      · intro pre hp
        rcases List.prefix_cons_iff.mp hp with rfl | ⟨tail, rfl, htail⟩
        · simpa using h0
        · have := hpre tail htail
          rwa [hnext, add_assoc, ← List.sum_cons] at this
      · rw [hsum, hnext, List.sum_cons, add_assoc]
      · intro w hw
        rcases List.mem_cons.mp hw with rfl | hw
        · exact hu
        · exact hus w hw

theorem created_range (h : TxChecked tx) (height : ℕ) :
    ∀ e ∈ (tx_step tx height).makes, money_range e.2.value = true :=
  fun _ he => h.outputs_range _ (created_value he)

theorem InRange.after (h : InRange v) (ht : TxChecked tx) (height : ℕ) :
    InRange ((tx_step tx height).after v) := by
  apply writeAll_values (h.taken _)
  intro e he c hc
  obtain ⟨a, ha, rfl⟩ := List.mem_map.mp he
  cases hc
  exact created_range ht height a ha

theorem supply_step {undo : TxUndo} (hf : FiniteSupport v) (hv : InRange v) (ht : TxChecked tx)
    (h : Paid v height tx undo.spent fees fees') (h0 : money_range fees = true) :
    FiniteSupport ((tx_step tx height).after v) ∧
      supply ((tx_step tx height).after v) + fees' ≤ supply v + fees + minted tx := by
  have hft : FiniteSupport ((tx_step tx height).taken v) := hf.writeAll _
  refine ⟨hft.writeAll _, ?_⟩
  have hmade : supply ((tx_step tx height).after v) ≤ supply ((tx_step tx height).taken v) +
      ((tx_step tx height).makes.map fun e => e.2.value).sum :=
    total_puts_le hft Coin.value (fun op c hc => (money_range_iff.mp (hv.taken _ op c hc)).1) fun e he =>
      (money_range_iff.mp (created_range ht height e he)).1
  have hout : ((tx_step tx height).makes.map fun e => e.2.value).sum ≤ tx_value_out tx :=
    created_sum_le tx.txid tx.is_coinbase height 0 ht.outputs_range
  obtain ⟨htakes, hz, hspent⟩ := h.takes
  have hfee := (paid_fee h h0).1
  have htaken : supply ((tx_step tx height).taken v) = supply v - tx_value_in undo := by
    have hkeys : ((tx.inputs.zip undo.spent).map fun q => (q.1.previous_output, q.2)).map Prod.fst =
        (tx_step tx height).takes := by
      rw [← htakes, List.map_map]
      rfl
    have hvals : (((tx.inputs.zip undo.spent).map fun q => (q.1.previous_output, q.2)).map fun e => Coin.value e.2) =
        undo.spent.map Coin.value := by
      conv_rhs => rw [← hspent]
      rw [List.map_map, List.map_map]
      rfl
    have hnodup : (tx_step tx height).takes.Nodup := by
      rw [tx_step]
      split
      · exact List.nodup_nil
      · exact ht.inputs_nodup
    rw [← hkeys] at hnodup
    have hdrop := total_drops hf Coin.value hnodup fun e he => by
      obtain ⟨q, hq, rfl⟩ := List.mem_map.mp he
      exact hz q hq
    rw [hkeys, hvals] at hdrop
    exact hdrop
  unfold tx_fee at hfee
  unfold minted
  split at hfee
  · rename_i hcb
    have hnone : tx_value_in undo = 0 := by
      unfold Paid at h
      rw [if_pos hcb] at h
      rw [tx_value_in, h.1]
      rfl
    rw [if_pos hcb]
    omega
  · rename_i hcb
    rw [if_neg hcb]
    omega

theorem supply_run (hf : FiniteSupport v) (hv : InRange v) (ht : ∀ tx ∈ txs, TxChecked tx)
    (h : PaidAll height v fees txs undos fees') (h0 : money_range fees = true) :
    supply (afterAll v (tx_steps height txs undos)) + fees' ≤ supply v + fees + (txs.map minted).sum := by
  induction txs generalizing v fees undos with
  | nil =>
    cases undos with
    | nil =>
      obtain rfl : fees' = fees := h
      simp [tx_steps, afterAll]
    | cons u us => exact h.elim
  | cons tx txs ih =>
    cases undos with
    | nil => exact h.elim
    | cons u us =>
      obtain ⟨next, hp, hrest⟩ := h
      have htx := ht tx List.mem_cons_self
      obtain ⟨hfin, hstep⟩ := supply_step hf hv htx hp h0
      have hrun := ih hfin (hv.after htx height) (fun a ha => ht a (List.mem_cons_of_mem _ ha)) hrest
        (paid_fee hp h0).2.1
      have hcons : afterAll v (tx_steps height (tx :: txs) (u :: us)) =
          afterAll ((tx_step tx height).after v) (tx_steps height txs us) := rfl
      rw [hcons, List.map_cons, List.sum_cons]
      omega

theorem finish_block_ok {env : ApplyEnv} {st : Applying} {pending : Option (List QueuedCheck)}
    (h : finish_block env block st = .ok pending) : ∃ coinbase, block.transactions.head? = some coinbase ∧
      tx_value_out coinbase ≤ saturating_add st.fees (block_subsidy env.height env.ctx.params) := by
  unfold finish_block at h
  split at h
  · cases h
  rename_i coinbase hhead
  split at h
  · cases h
  rename_i coinbase_out hsum
  have hout := checked_sum_eq hsum
  rw [zero_add] at hout
  dsimp only at h
  split at h
  · cases h
  · refine ⟨coinbase, hhead, ?_⟩
    rw [tx_value_out]
    omega

theorem finish_block_total {env : ApplyEnv} {st : Applying} (h : BlockChecked block) :
    finish_block env block st ≠ .panicked := by
  obtain ⟨coinbase, txs, hb, -, -⟩ := h.coinbase_first
  have hc := h.txs coinbase (by simp [hb])
  have hsum := checked_sum_of_total (le_refl 0) (outputs_nonneg hc) (by
    rw [zero_add]
    exact hc.outputs_total)
  unfold finish_block
  rw [hb, List.head?_cons]
  dsimp only
  rw [hsum]
  dsimp only
  split
  · simp
  · split
    · simp
    · split <;> simp

theorem probe_runs_finite (runs : List EpochLayer) :
    {op | ∃ c, probe_runs runs op = some (some c)}.Finite := by
  apply Set.Finite.subset ((runs.flatMap fun l => l.run.records.map Prod.fst).toFinset.finite_toSet)
  rintro op ⟨c, hc⟩
  obtain ⟨l, hl, hp⟩ := probe_runs_mem hc
  have hmem : (op, c) ∈ l.run.records := by
    unfold EpochLayer.probe at hp
    split at hp
    · cases hp
    split at hp
    · rename_i hget
      cases hp
      exact SortedRun.get_key_mem hget
    · cases hp
  simp only [Finset.mem_coe, List.mem_toFinset, List.mem_flatMap, List.mem_map]
  exact ⟨l, hl, _, hmem, rfl⟩

theorem UtxoSet.Ok.finite {s : UtxoSet} (h : Ok s) : FiniteSupport s.get := by
  induction h with
  | intro s layers base ih =>
    have hupper : {op | ∃ c, s.upper op = some (some c)}.Finite := by
      unfold upper
      cases hb : s.base with
      | none => exact probe_runs_finite s.runs
      | some b =>
        apply Set.Finite.subset (ih b hb)
        rintro op ⟨c, hc⟩ hn
        simp [hn] at hc
    have hunder : FiniteSupport s.under := by
      cases hfl : s.flushing with
      | none =>
        apply Set.Finite.subset (hupper.union (committed_finite s))
        intro op hop
        cases hup : s.upper op with
        | none => simpa [under, snap_lookup, hfl, hup] using hop
        | some e =>
          cases e with
          | none => simp [under, snap_lookup, hfl, hup] at hop
          | some c => exact Or.inl ⟨c, hup⟩
      | some layer =>
        apply Set.Finite.subset ((finite_lookup layer.snap).union (hupper.union (committed_finite s)))
        intro op hop
        cases hsn : layer.snap.lookup op with
        | some e => simp [hsn]
        | none =>
          right
          cases hup : s.upper op with
          | none => simpa [under, snap_lookup, hfl, hsn, hup] using hop
          | some e =>
            cases e with
            | none => simp [under, snap_lookup, hfl, hsn, hup] at hop
            | some c => exact Or.inl ⟨c, hup⟩
    rw [(Ok.intro s layers base).get_eq]
    exact hunder.overlaid s.map

theorem connect_not_panicked {s : UtxoSet} {ctx : ConnectContext} (h : BlockChecked block) :
    (connect_block block s ctx).1 ≠ .panicked := by
  have hin : (connect_block_inner block s ctx).1 ≠ .panicked := by
    unfold connect_block_inner
    split
    · simp
    split
    · simp
    dsimp only
    split
    · simp
    split
    · rename_i hfin
      exact absurd hfin (finish_block_total h)
    · simp
    · simp
  unfold connect_block
  split
  · rename_i hp
    rw [hp] at hin
    exact absurd rfl hin
  · simp
  · simp
  · split <;> simp

/-- A checked block that connects adds at most the subsidy, and no sum of it leaves `i64`. -/
theorem no_inflation {params : Params} {s : UtxoSet} {ctx : ConnectContext} (hb : check_block block params = .ok ())
    (hs : Reachable s) (hv : InRange s.get) :
    (connect_block block s ctx).1 ≠ .panicked ∧
      ∀ undo t, connect_block block s ctx = (.ok undo, t) →
        ∃ height, (∃ mtp, block_position ctx = .ok (height, mtp)) ∧
        supply t.get ≤ supply s.get + block_subsidy height ctx.params ∧
        SumsFit block undo (block_subsidy height ctx.params) := by
  have hchecked := check_block_ok hb
  refine ⟨connect_not_panicked hchecked, fun undo t hc => ?_⟩
  obtain ⟨pending, rec, hin⟩ := connect_block_ok hc
  obtain ⟨env, st, ⟨mtp, hpos, henv⟩, hpre, rfl, hfin⟩ := connect_inner_ok hs.ok hin
  have hparams : env.ctx.params = ctx.params := by rw [henv]; rfl
  obtain ⟨coinbase, hhead, hreward⟩ := finish_block_ok hfin
  obtain ⟨coinbase', hhead', hminted⟩ := minted_block hchecked
  obtain rfl : coinbase = coinbase' := Option.some.inj (hhead.symm.trans hhead')
  obtain ⟨hfees, hsum, hspent⟩ := paidAll_fees hpre.paid (by decide)
  rw [zero_add] at hsum
  have hrange : money_range st.fees = true := by
    have := hfees _ (List.prefix_refl _)
    rwa [zero_add, ← hsum] at this
  obtain ⟨hsat, hfits⟩ := saturating_add_le hrange (block_subsidy_bounds env.height ctx.params)
  rw [hparams, hsat] at hreward
  have hrun := supply_run hs.ok.finite hv hchecked.txs hpre.paid (by decide)
  rw [← hpre.view, hminted] at hrun
  refine ⟨env.height, ⟨mtp, hpos⟩, by omega, hspent, ?_, ?_, ?_⟩
  · intro tx htx
    exact fits_of_total (outputs_nonneg (hchecked.txs tx htx)) (hchecked.txs tx htx).outputs_total
  · intro pre hp
    have := hfees pre hp
    rw [zero_add] at this
    exact fits_of_range this
  · rwa [← hsum]

end

section

attribute [local instance] Platform.sample

theorem sample_set_range : InRange sample_set.get := by
  unfold InRange
  rw [sample_set, new_ok.get_put]
  apply update_values (P := fun c : Coin => money_range c.value = true)
  · intro op c hc
    cases hc
  · intro c hc
    cases hc
    decide

theorem no_inflation_spend : ∃ undo t, connect_block sample_block sample_set sample_context = (.ok undo, t) ∧
    supply t.get ≤ supply sample_set.get + block_subsidy 1 sample_params ∧
    SumsFit sample_block undo (block_subsidy 1 sample_params) := by
  have hchecked : check_block sample_block sample_params = .ok () := by decide +kernel
  obtain ⟨-, h⟩ := no_inflation hchecked sample_set_reachable sample_set_range
  obtain ⟨height, ⟨mtp, hpos⟩, hsupply, hfits⟩ := h _ _ sample_connects
  have hheight : block_position sample_context = .ok (1, 1) := by decide
  rw [hheight] at hpos
  cases hpos
  exact ⟨_, _, sample_connects, hsupply, hfits⟩

end

end AvilaNode
