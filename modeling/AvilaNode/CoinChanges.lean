import AvilaNode.BlockSteps
import AvilaNode.ChainSound

/-! The coins that a change of the chain takes away: outputs of the blocks taken off it, inputs of those put on it. -/

namespace AvilaNode

open Layers Ledger UtxoSet Relation

namespace Ledger

variable {K V : Type} [DecidableEq K]

theorem writeAll_lost {v : View K V} {es : List (K × Option V)} {k : K} (h : v k ≠ none)
    (hnone : writeAll v es k = none) : (k, none) ∈ es := by
  induction es generalizing v with
  | nil => exact absurd hnone h
  | cons e es ih =>
    by_cases hk : Function.update v e.1 e.2 k = none
    · by_cases hke : k = e.1
      · rw [hke, Function.update_self] at hk
        rw [hke, ← hk]
        exact List.mem_cons_self
      · rw [Function.update_of_ne hke] at hk
        exact absurd hk h
    · exact List.mem_cons_of_mem _ (ih hk hnone)

omit [DecidableEq K] in
theorem undoingAll_none {steps : List (Step K V × Undo K V)} {k : K} (h : (k, none) ∈ undoingAll steps) :
    ∃ step ∈ steps, k ∈ step.1.makes.map Prod.fst := by
  induction steps with
  | nil => cases h
  | cons step steps ih =>
    obtain ⟨t, u⟩ := step
    rw [undoingAll, List.mem_append] at h
    rcases h with h | h
    · obtain ⟨step, hmem, hk⟩ := ih h
      exact ⟨step, List.mem_cons_of_mem _ hmem, hk⟩
    simp only [Step.undoing, List.mem_append, mem_drops, mem_puts] at h
    rcases h with (⟨hk, -⟩ | ⟨c, -, hc⟩) | ⟨c, -, hc⟩
    · exact ⟨(t, u), List.mem_cons_self, hk⟩
    · cases hc
    · cases hc

theorem Step.after_lost {t : Step K V} {v : View K V} {k : K} (h : v k ≠ none) (hnone : t.after v k = none) :
    k ∈ t.takes := by
  have hputs : ∀ e, e ∈ puts t.makes → e ≠ (k, none) := by
    rintro e he rfl
    obtain ⟨c, -, hc⟩ := mem_puts.mp he
    cases hc
  by_cases htaken : t.taken v k = none
  · exact (mem_drops.mp (writeAll_lost h htaken)).1
  · exact absurd rfl (hputs _ (writeAll_lost htaken hnone))

end Ledger

section

variable [Platform]

def Transaction.Makes (tx : Transaction) (op : OutPoint) : Prop :=
  op.txid = Platform.txid tx ∧ op.vout < tx.outputs.length

def Transaction.Spends (tx : Transaction) (op : OutPoint) : Prop :=
  tx.is_coinbase = false ∧ op ∈ tx.inputs.map TxIn.previous_output

def Block.Makes (block : Block) (op : OutPoint) : Prop := ∃ tx ∈ block.transactions, tx.Makes op

def Block.Spends (block : Block) (op : OutPoint) : Prop := ∃ tx ∈ block.transactions, tx.Spends op

variable {block : Block} {op : OutPoint}

theorem disconnect_lost {s t : UtxoSet} {undo : BlockUndo} (h : Ok s)
    (hd : disconnect_block block s undo = (.ok (), t)) :
    Ok t ∧ ∀ op, s.get op ≠ none → t.get op = none → block.Makes op := by
  unfold disconnect_block at hd
  split at hd
  · cases hd
  · cases hd
    obtain ⟨hok, hview⟩ := disconnect_txs_view 0 block.transactions undo.txs h
    refine ⟨hok, fun op hop hnone => ?_⟩
    rw [hview] at hnone
    obtain ⟨step, hstep, hmade⟩ := undoingAll_none (writeAll_lost hop hnone)
    obtain ⟨⟨tx, u⟩, hmem, rfl⟩ := List.mem_map.mp hstep
    have htx := (List.of_mem_zip hmem).1
    obtain ⟨tx', htx', hid, hv⟩ := mem_bip30_outpoints.mp (made_outpoint htx hmade)
    exact ⟨tx', htx', hid, hv⟩

theorem after_txs_lost {height : ℕ} {txs : List Transaction} {v : View OutPoint Coin} (h : v op ≠ none)
    (hnone : after_txs height txs v op = none) : ∃ tx ∈ txs, tx.Spends op := by
  induction txs generalizing v with
  | nil => exact absurd hnone h
  | cons tx txs ih =>
    by_cases hstep : (tx_step tx height).after v op = none
    · have htakes := Step.after_lost h hstep
      refine ⟨tx, List.mem_cons_self, ?_⟩
      unfold tx_step at htakes
      dsimp only at htakes
      split at htakes
      · cases htakes
      · next hcb => exact ⟨Bool.not_eq_true _ ▸ hcb, htakes⟩
    · obtain ⟨tx', htx', hspends⟩ := ih hstep hnone
      exact ⟨tx', List.mem_cons_of_mem tx htx', hspends⟩

theorem connect_lost {s t : UtxoSet} {ctx : ConnectContext} {connected : Connected} (h : Ok s)
    (hc : connect_block_full block s ctx = (.ok connected, t)) :
    Ok t ∧ ∀ op, s.get op ≠ none → t.get op = none → block.Spends op := by
  unfold connect_block_full at hc
  split at hc
  · next hin =>
    cases hc
    obtain ⟨env, st, -, hpre, rfl, -⟩ := connect_inner_ok h hin
    refine ⟨hpre.reads.ok, fun op hop hnone => ?_⟩
    rw [hpre.view, after_steps _ _ _ hpre.length] at hnone
    exact after_txs_lost hop hnone
  · cases hc
  · cases hc

inductive CoinStep (gone connected : List Block) : UtxoSet → UtxoSet → Prop
  | still {s t : UtxoSet} (ok : Ok t) (view : t.get = s.get) : CoinStep gone connected s t
  | disconnect {s t : UtxoSet} {block : Block} {undo : BlockUndo} (off : block ∈ gone)
      (ran : disconnect_block block s undo = (.ok (), t)) : CoinStep gone connected s t
  | connect {s t : UtxoSet} {block : Block} {ctx : ConnectContext} {record : Connected} (on : block ∈ connected)
      (ran : connect_block_full block s ctx = (.ok record, t)) : CoinStep gone connected s t

abbrev Reorganizes (gone connected : List Block) : UtxoSet → UtxoSet → Prop :=
  ReflTransGen (CoinStep gone connected)

variable {gone connected gone' connected' : List Block} {s t : UtxoSet}

theorem CoinStep.ok (h : CoinStep gone connected s t) (hs : Ok s) : Ok t := by
  cases h with
  | still ok _ => exact ok
  | disconnect _ ran => exact (disconnect_lost hs ran).1
  | connect _ ran => exact (connect_lost hs ran).1

theorem CoinStep.mono (h : CoinStep gone connected s t) (hg : gone ⊆ gone') (hc : connected ⊆ connected') :
    CoinStep gone' connected' s t := by
  cases h with
  | still ok view => exact .still ok view
  | disconnect off ran => exact .disconnect (hg off) ran
  | connect on ran => exact .connect (hc on) ran

theorem Reorganizes.mono (h : Reorganizes gone connected s t) (hg : gone ⊆ gone') (hc : connected ⊆ connected') :
    Reorganizes gone' connected' s t :=
  ReflTransGen.mono (fun _ _ hstep => hstep.mono hg hc) _ _ h

theorem Reorganizes.ok (h : Reorganizes gone connected s t) (hs : Ok s) : Ok t := by
  induction h with
  | refl => exact hs
  | tail _ hstep ih => exact hstep.ok ih

theorem CoinStep.lost (h : CoinStep gone connected s t) (hs : Ok s) (hop : s.get op ≠ none) (hnone : t.get op = none) :
    (∃ block ∈ gone, block.Makes op) ∨ ∃ block ∈ connected, block.Spends op := by
  cases h with
  | still _ view =>
    rw [view] at hnone
    exact absurd hnone hop
  | disconnect off ran => exact Or.inl ⟨_, off, (disconnect_lost hs ran).2 op hop hnone⟩
  | connect on ran => exact Or.inr ⟨_, on, (connect_lost hs ran).2 op hop hnone⟩

theorem Reorganizes.lost (h : Reorganizes gone connected s t) (hs : Ok s) (hop : s.get op ≠ none)
    (hnone : t.get op = none) : (∃ block ∈ gone, block.Makes op) ∨ ∃ block ∈ connected, block.Spends op := by
  induction h with
  | refl => exact absurd hnone hop
  | @tail u t hsu hstep ih =>
    by_cases hu : u.get op = none
    · exact ih hu
    · exact hstep.lost (Reorganizes.ok hsu hs) hu hnone

theorem get_put_all (h : Ok s) (es : List (OutPoint × Option Coin)) :
    (s.put_all es).get = writeAll s.get es := by
  induction es generalizing s with
  | nil => rfl
  | cons e es ih =>
    rw [put_all, ih (h.put e.1 e.2), h.get_put]
    rfl

theorem get_merged {s sim : UtxoSet} (h : Ok s) (hw : Writes s.overlay.1 sim) :
    (s.overlay.2.unoverlay sim true).get = sim.get := by
  obtain ⟨b, hb, -⟩ := hw.base_kept (overlay_ok h) s rfl
  have hsim := hw.ok (overlay_ok h)
  have hunder : sim.under = b.get := by
    funext op
    unfold under upper
    rw [(hsim.layers.overlay_bare b hb).2.2.2.2, hb]
    rfl
  unfold UtxoSet.unoverlay
  rw [hb]
  dsimp only
  rw [if_pos rfl, get_put_all (hsim.base hb), hsim.get_eq, hunder]
  funext op
  cases hop : sim.map.lookup op with
  | none =>
    rw [overlaid_of_none _ hop]
    apply writeAll_of_notMem
    intro e he
    rw [mem_toList, hop] at he
    cases he
  | some e =>
    rw [overlaid_of_lookup _ hop]
    apply writeAll_of_mem (mem_toList.mpr hop)
    intro x hx
    rw [mem_toList, hop] at hx
    exact (Option.some.inj hx).symm

namespace Chainstate

def bodies (s : Chainstate) (hashes : List BlockHash) : List Block := hashes.filterMap s.body

variable {parts : List (BlockRecord × BlockReceipt)} {branch_hashes : List BlockHash} {r : Except ConnectError Unit}
  {sim sim' : UtxoSet} {tree : HeaderTree} {hash : BlockHash}

theorem mem_bodies {s : Chainstate} {hashes : List BlockHash} (hmem : hash ∈ hashes)
    (hbody : s.body hash = some block) : block ∈ s.bodies hashes :=
  List.mem_filterMap.mpr ⟨hash, hmem, hbody⟩

theorem branch_body_some {s : Chainstate} (h : s.branch_body hash = some block) :
    s.body hash = some block := (Option.filter_eq_some_iff.mp h).1

theorem rewind_step_reorganizes {s t : Chainstate} (hrun : s.rewind_step = (r, t)) :
    ∃ hashes, t.disconnected = s.disconnected ++ hashes ∧ t.body = s.body ∧
      Reorganizes (s.bodies hashes) [] s.utxo t.utxo := by
  have hstay : ∃ hashes, s.disconnected = s.disconnected ++ hashes ∧ s.body = s.body ∧
      Reorganizes (s.bodies hashes) [] s.utxo s.utxo := ⟨[], (List.append_nil _).symm, rfl, .refl⟩
  unfold rewind_step at hrun
  split at hrun
  · cases hrun
    exact hstay
  · next hash _ =>
    split at hrun
    · cases hrun
      exact hstay
    · next block hblock =>
      split at hrun
      · cases hrun
        exact hstay
      split at hrun
      · next hd =>
        cases hrun
        unfold disconnect_block at hd
        split at hd
        · cases hd
          exact hstay
        · cases hd
      · next hd =>
        cases hrun
        refine ⟨[hash], rfl, rfl, .single ?_⟩
        exact .disconnect (mem_bodies (List.mem_singleton_self hash) hblock) hd

theorem rewind_loop_reorganizes {steps : ℕ} {s t : Chainstate} (hrun : rewind_loop steps s = (r, t)) :
    ∃ hashes, t.disconnected = s.disconnected ++ hashes ∧
      Reorganizes (s.bodies hashes) [] s.utxo t.utxo := by
  induction steps generalizing s with
  | zero =>
    cases hrun
    exact ⟨[], (List.append_nil _).symm, .refl⟩
  | succ steps ih =>
    rw [rewind_loop] at hrun
    split at hrun
    · next hstep =>
      cases hrun
      obtain ⟨hashes, hlog, -, hfirst⟩ := rewind_step_reorganizes hstep
      exact ⟨hashes, hlog, hfirst⟩
    · next u hstep =>
      obtain ⟨hashes, hlog, hbody, hfirst⟩ := rewind_step_reorganizes hstep
      obtain ⟨rest, hlog', hrest⟩ := ih hrun
      refine ⟨hashes ++ rest, by rw [hlog', hlog, List.append_assoc], ?_⟩
      rw [bodies, hbody] at hrest
      apply ReflTransGen.trans
      · exact hfirst.mono (List.filterMap_subset _ (List.subset_append_left hashes rest)) (List.Subset.refl _)
      · exact Reorganizes.mono hrest (List.filterMap_subset _ (List.subset_append_right hashes rest))
          (List.Subset.refl _)

theorem simulate_disconnect_reorganizes {s : Chainstate} {fork_height above : ℕ}
    (hrun : s.simulate_disconnect fork_height above sim = (.ok (), sim')) :
    Reorganizes (s.bodies (s.chain.drop (fork_height + 1))) [] sim sim' := by
  induction above generalizing sim with
  | zero =>
    cases hrun
    exact .refl
  | succ above ih =>
    rw [simulate_disconnect] at hrun
    split at hrun
    · cases hrun
    · next block hblock =>
      split at hrun
      · cases hrun
      split at hrun
      · cases hrun
      · next hd =>
        obtain ⟨hash, hhash, hbody⟩ := Option.bind_eq_some_iff.mp hblock
        apply ReflTransGen.head _ (ih hrun)
        apply CoinStep.disconnect _ hd
        apply mem_bodies _ (branch_body_some hbody)
        apply List.mem_of_getElem? (i := above)
        rw [List.getElem?_drop, ← hhash]
        congr 1
        omega

theorem simulate_connect_reorganizes {s : Chainstate}
    (hrun : s.simulate_connect branch_hashes sim = (.ok parts, sim', tree)) :
    Reorganizes [] (s.bodies branch_hashes) sim sim' := by
  induction branch_hashes generalizing sim parts with
  | nil =>
    cases hrun
    exact .refl
  | cons hash branch_hashes ih =>
    rw [simulate_connect] at hrun
    split at hrun
    · cases hrun
    · next block hbody =>
      dsimp only at hrun
      split at hrun
      · cases hrun
      · next hc =>
        split at hrun
        · cases hrun
        · next hrest =>
          cases hrun
          apply ReflTransGen.head
          · exact .connect (mem_bodies List.mem_cons_self (branch_body_some hbody)) hc
          · exact Reorganizes.mono (ih hrest) (List.Subset.refl _)
              (List.filterMap_subset _ (List.subset_cons_self hash branch_hashes))

theorem adopted_reorganizes {s : Chainstate} {fork_height : ℕ} (h : Ok s.utxo)
    (hrun : s.simulate_branch s.utxo.overlay.1 fork_height branch_hashes = (.ok parts, sim, tree)) :
    Reorganizes (s.bodies (s.chain.drop (fork_height + 1))) (s.bodies branch_hashes) s.utxo
      (s.utxo.overlay.2.unoverlay sim true) := by
  have hwrites := simulate_branch_writes s (overlay_ok h) fork_height branch_hashes
  rw [hrun] at hwrites
  have hmerged := (unoverlay_kept (hwrites.kept (overlay_ok h)) true).ok
  unfold simulate_branch at hrun
  split at hrun
  · cases hrun
  · next hdisconnect =>
    split at hrun
    · cases hrun
    · next hconnect =>
      cases hrun
      have hoff := (simulate_disconnect_reorganizes hdisconnect).mono (List.Subset.refl _)
        (List.nil_subset (s.bodies branch_hashes))
      have hon := (simulate_connect_reorganizes hconnect).mono
        (List.nil_subset (s.bodies (s.chain.drop (fork_height + 1)))) (List.Subset.refl _)
      apply ReflTransGen.head (.still (overlay_ok h) (get_overlay h))
      exact (hoff.trans hon).tail (.still hmerged (get_merged h hwrites))

end Chainstate

end

end AvilaNode
