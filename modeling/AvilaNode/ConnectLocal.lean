import AvilaNode.BlockSteps

/-! Connecting a block reads the coins only where its transactions take or make one. -/

namespace AvilaNode

open Layers Ledger UtxoSet

section

variable [Platform]

structure Twin (A : OutPoint → Prop) (p p' : Delta OutPoint Coin) (s s' : UtxoSet) : Prop where
  reads : Reads s (some p)
  reads' : Reads s' (some p')
  agree : ∀ op, A op → s.get op = s'.get op

variable {A : OutPoint → Prop} {env : ApplyEnv} {p : Delta OutPoint Coin}

omit [Platform] in
theorem mapM_agree {f g : TxIn → Option Coin} {inputs : List TxIn} (h : ∀ i ∈ inputs, f i = g i) :
    inputs.mapM f = inputs.mapM g := by
  induction inputs with
  | nil => rfl
  | cons i inputs ih =>
    rw [List.mapM_cons, List.mapM_cons, h i List.mem_cons_self, ih fun j hj => h j (List.mem_cons_of_mem _ hj)]

variable {tx : Transaction} {s s' : UtxoSet} {index : ℕ} {next : Applying}

theorem Twin.check_tx {fees : ℤ} (h : Twin A env.prefetched p s s') (hA : ∀ op ∈ (tx_step tx env.height).takes, A op) :
    (AvilaNode.check_tx { env with prefetched := p } tx s' fees).1 = (AvilaNode.check_tx env tx s fees).1 := by
  unfold AvilaNode.check_tx
  by_cases hcb : tx.is_coinbase
  · rw [if_pos hcb, if_pos hcb]
  rw [tx_step, if_neg hcb] at hA
  rw [if_neg hcb, if_neg hcb]
  obtain ⟨hres, -⟩ := resolve_inputs_eq tx.inputs h.reads
  obtain ⟨hres', -⟩ := resolve_inputs_eq tx.inputs h.reads'
  have hfound : (resolve_inputs (some p) tx.inputs s').1 =
    (resolve_inputs (some env.prefetched) tx.inputs s).1 := by
    rw [hres, hres']
    exact mapM_agree fun i hi => (h.agree _ (hA _ (List.mem_map_of_mem hi))).symm
  unfold check_spends check_tx_inputs_using
  cases hr : resolve_inputs (some env.prefetched) tx.inputs s with
  | mk found t =>
    cases hr' : resolve_inputs (some p) tx.inputs s' with
    | mk found' t' =>
      rw [hr, hr'] at hfound
      subst hfound
      cases found' with
      | none => rfl
      | some spent =>
        dsimp only
        cases check_values tx env.height spent with
        | error e => rfl
        | ok fee =>
          dsimp only
          split
          · rfl
          · split <;> rfl

variable {st : Applying} {t : UtxoSet} {ctx : ConnectContext}

theorem apply_tx_ok (ha : apply_tx env index tx st = (.ok (), next)) :
    ∃ spent fees t u undo, check_tx env tx st.utxo st.fees = (.ok (spent, fees), t) ∧
      min (st.sigops_cost + tx_sigop_cost tx spent env.flags) (2 ^ 64 - 1) ≤ MAX_BLOCK_SIGOPS_COST ∧
      (spend_inputs (tx.inputs.zip spent) t).add_tx_outputs tx env.height ⟨(tx.inputs.zip spent).map Prod.snd, []⟩ =
        (.ok (), u, undo) ∧
      next = ⟨u, st.applied ++ [⟨index, undo⟩], fees,
        min (st.sigops_cost + tx_sigop_cost tx spent env.flags) (2 ^ 64 - 1), st.jobs ++ queued_check env tx spent,
        st.spent_coins + spent.length, st.created_coins + (spendable_outputs tx).length⟩ := by
  unfold apply_tx at ha
  cases hc : check_tx env tx st.utxo st.fees with
  | mk verdict t =>
    rw [hc] at ha
    cases verdict with
    | error e => cases ha
    | ok p =>
      obtain ⟨spent, fees⟩ := p
      dsimp only at ha
      split at ha
      · cases ha
      rename_i hsig
      cases hadd : (spend_inputs (tx.inputs.zip spent) t).add_tx_outputs tx env.height
          ⟨(tx.inputs.zip spent).map Prod.snd, []⟩ with
      | mk verdict rest =>
        obtain ⟨u, undo⟩ := rest
        rw [hadd] at ha
        cases verdict with
        | error e => cases ha
        | ok u' =>
          cases ha
          exact ⟨spent, fees, t, u, undo, rfl, by omega, hadd, rfl⟩

theorem add_tx_outputs_agree {p p' : Option (Delta OutPoint Coin)} {height : ℕ} {undo undo' : TxUndo} (h : Reads s p)
    (h' : Reads s' p') (hg : ∀ e ∈ (tx_step tx height).makes, s.get e.1 = s'.get e.1)
    (ha : s.add_tx_outputs tx height undo = (.ok (), t, undo')) :
    ∃ t', s'.add_tx_outputs tx height undo = (.ok (), t', undo') := by
  obtain ⟨-, hcase⟩ := add_outputs_view tx.txid tx.is_coinbase height tx.outputs 0 undo h
  obtain ⟨-, hcase'⟩ := add_outputs_view tx.txid tx.is_coinbase height tx.outputs 0 undo h'
  have hcov : covered s'.get (created tx.txid tx.is_coinbase height 0 tx.outputs) =
      covered s.get (created tx.txid tx.is_coinbase height 0 tx.outputs) := (covered_congr hg).symm
  unfold UtxoSet.add_tx_outputs at ha ⊢
  rw [ha] at hcase
  rw [hcov] at hcase'
  split at hcase
  · rename_i hclean
    obtain ⟨-, -, rfl⟩ := hcase
    rw [if_pos hclean] at hcase'
    exact ⟨_, Prod.ext hcase'.1 (Prod.ext rfl hcase'.2.2)⟩
  · cases hcase.1

theorem Twin.apply_tx (h : Twin A env.prefetched p st.utxo s')
    (hA : ∀ op, op ∈ (tx_step tx env.height).takes ∨ op ∈ (tx_step tx env.height).makes.map Prod.fst → A op)
    (ha : AvilaNode.apply_tx env index tx st = (.ok (), next)) :
    ∃ w, AvilaNode.apply_tx { env with prefetched := p } index tx { st with utxo := s' } =
        (.ok (), { next with utxo := w }) ∧ Twin A env.prefetched p next.utxo w := by
  have hcheck := @Twin.check_tx _ _ _ _ _ _ _ st.fees h fun op hop => hA op (.inl hop)
  obtain ⟨spent, fees, t, u, undo, hc, hsig, hadd, hnext⟩ := apply_tx_ok ha
  obtain ⟨hreads, hget, -⟩ := check_tx_view h.reads hc
  rw [hc] at hcheck
  cases hc' : AvilaNode.check_tx { env with prefetched := p } tx s' st.fees with
  | mk verdict t' =>
    rw [hc'] at hcheck
    subst hcheck
    obtain ⟨hreads', hget', -⟩ := check_tx_view h.reads' hc'
    obtain ⟨hs, hsg⟩ := spend_inputs_view (tx.inputs.zip spent) hreads
    obtain ⟨hs', hsg'⟩ := spend_inputs_view (tx.inputs.zip spent) hreads'
    obtain ⟨w, hadd'⟩ := add_tx_outputs_agree hs hs' (fun e he => by
      rw [hsg, hsg', hget, hget']
      exact writeAll_congr _ (h.agree _ (hA _ (.inr (List.mem_map_of_mem he))))) hadd
    have ha' : AvilaNode.apply_tx { env with prefetched := p } index tx { st with utxo := s' } =
        (.ok (), { next with utxo := w }) := by
      unfold AvilaNode.apply_tx
      rw [hc']
      dsimp only
      rw [if_neg (by omega), hadd', hnext]
      rfl
    refine ⟨w, ha', (apply_tx_view h.reads ha).1, (apply_tx_view h.reads' ha').1, fun op hop => ?_⟩
    obtain ⟨-, -, -, -, -, hview, -⟩ := apply_tx_view h.reads ha
    obtain ⟨-, -, -, -, -, hview', -⟩ := apply_tx_view h.reads' ha'
    rw [hview]
    exact (Step.after_congr (h.agree op hop)).trans (congrFun hview' op).symm

theorem Twin.apply_txs {txs : List Transaction} (h : Twin A env.prefetched p st.utxo s')
    (hA : ∀ op, TouchedBy env.height txs op → A op) (ha : AvilaNode.apply_txs env index txs st = (.ok (), next)) :
    ∃ w, AvilaNode.apply_txs { env with prefetched := p } index txs { st with utxo := s' } =
      (.ok (), { next with utxo := w }) := by
  induction txs generalizing index st s' with
  | nil =>
    cases ha
    exact ⟨s', rfl⟩
  | cons tx txs ih =>
    rw [AvilaNode.apply_txs] at ha
    cases hx : AvilaNode.apply_tx env index tx st with
    | mk verdict mid =>
      rw [hx] at ha
      cases verdict with
      | error e => cases ha
      | ok u =>
        obtain ⟨w, hw, hmid⟩ := h.apply_tx (fun op hop => hA op (touchedBy_cons.mpr (.inl hop))) hx
        obtain ⟨w', hw'⟩ := ih hmid (fun op hop => hA op (touchedBy_cons.mpr (.inr hop))) ha
        refine ⟨w', ?_⟩
        rw [AvilaNode.apply_txs, hw]
        exact hw'

theorem connect_inner_local {block : Block} {connected : Connected} (hs : Ok s) (hs' : Ok s')
    (hg : ∀ op, TouchedBy (context_height ctx) block.transactions op → s.get op = s'.get op)
    (hscan : bip30_scan block s' ctx (context_height ctx) = none)
    (hin : connect_block_inner block s ctx = (.ok connected, t)) :
    ∃ t', connect_block_inner block s' ctx = (.ok connected, t') := by
  unfold connect_block_inner at hin
  cases hpos : block_position ctx with
  | error e => simp [hpos] at hin
  | ok position =>
    obtain ⟨height, mtp⟩ := position
    have hh : context_height ctx = height := by simp [context_height, hpos]
    rw [hh] at hg hscan
    simp only [hpos] at hin
    cases hb : bip30_scan block s ctx height with
    | some op => simp [hb] at hin
    | none =>
      simp only [hb] at hin
      cases ha : apply_txs (apply_env block s ctx height mtp) 0 block.transactions (start_applying s) with
      | mk verdict st =>
        rw [ha] at hin
        cases verdict with
        | error e => simp at hin
        | ok u =>
          have htwin : Twin (TouchedBy height block.transactions) (apply_env block s ctx height mtp).prefetched
              (prefetch block s') (start_applying s).utxo s' :=
            ⟨apply_env_reads hs block ctx height mtp, apply_env_reads hs' block ctx height mtp, hg⟩
          obtain ⟨w, hw⟩ := htwin.apply_txs (fun op hop => hop) ha
          have hw' : apply_txs (apply_env block s' ctx height mtp) 0 block.transactions (start_applying s') =
              (.ok (), { st with utxo := w }) := hw
          dsimp only at hin
          cases hf : finish_block (apply_env block s ctx height mtp) block st with
          | panicked => simp [hf] at hin
          | err e => simp [hf] at hin
          | ok pending =>
            have hf' : finish_block (apply_env block s' ctx height mtp) block { st with utxo := w } = .ok pending :=
              hf
            rw [hf] at hin
            cases hin
            refine ⟨w, ?_⟩
            unfold connect_block_inner
            rw [hpos]
            dsimp only
            rw [hscan]
            rw [hw']
            dsimp only
            rw [hf']
            rfl

/-- A block that connects to one set connects, with the same undo data, to every set that holds the same coins
at the outpoints it takes or makes and that its overwrite scan passes. -/
theorem connect_block_local {block : Block} {undo : BlockUndo} (hs : Ok s) (hs' : Ok s')
    (hg : ∀ op, TouchedBy (context_height ctx) block.transactions op → s.get op = s'.get op)
    (hscan : bip30_scan block s' ctx (context_height ctx) = none) (hc : connect_block block s ctx = (.ok undo, t)) : ∃
    t', connect_block block s' ctx = (.ok undo, t') := by
  obtain ⟨pending, rec, hin⟩ := connect_block_ok hc
  obtain ⟨w, hw⟩ := connect_inner_local hs hs' hg hscan hin
  unfold connect_block at hc ⊢
  rw [hin] at hc
  rw [hw]
  cases pending with
  | none => exact ⟨w, rfl⟩
  | some jobs =>
    dsimp only at hc ⊢
    cases hr : run_script_checks jobs with
    | ok u => exact ⟨w, rfl⟩
    | error e => simp [hr] at hc

end

end AvilaNode
