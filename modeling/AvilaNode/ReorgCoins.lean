import AvilaNode.CoinChanges
import AvilaNode.FailedReorg

/-! The coins of a chain state that can be reached: its commits go through, and a coin goes with its block only. -/

namespace AvilaNode.Chainstate

open Layers UtxoSet

section

variable {s : Chainstate}

theorem floor_le_start {f : ℕ × BlockHash} (hf : s.undo_floor = some f) : f.1 ≤ s.undo_start := by
  simp [undo_start, hf]

theorem above_floor {target : ℕ} (hlow : s.undo_start ≤ target) : ¬s.undo_floor.any fun f => target < f.1 := by
  cases hf : s.undo_floor with
  | none => simp
  | some f => simpa using (floor_le_start hf).trans hlow

variable [Platform]

theorem Reachable.sound (h : Reachable Resting s) : Sound s := by
  obtain ⟨s₀, hs₀, hm⟩ := h.moves
  exact hm.invariant (fun _ _ hmove hs => hmove.sound hs) hs₀.filed.sound

/-- The commit in flight joins and the next one starts: neither is refused, and the chain stays as it is. -/
def Commits (s : Chainstate) : Prop :=
  ∃ t u, s.join_coins_flush = (.ok (), t) ∧ t.utxo.flush_join = none ∧ t.chain = s.chain ∧
    s.flush_coins_with [] s.tip_height = (.ok (), u) ∧ u.chain = s.chain

theorem Sound.commits (h : Sound s) : s.Commits := by
  obtain ⟨t, hj, -, hidle, hbacked, hchain⟩ := h.join
  unfold Commits flush_coins_with
  split
  · exact ⟨t, s, hj, hidle, hchain, rfl, rfl⟩
  rename_i hbe
  have hsome : t.utxo.backend.isSome := by
    rw [hbacked]
    simpa [Option.isSome_iff_ne_none] using hbe
  obtain ⟨utxo, job, hf, -⟩ := flush_owned_idle hidle hsome ([] ++ t.tail_rows) s.tip_height
  rw [hj]
  dsimp only
  rw [hf]
  exact ⟨t, _, rfl, hidle, hchain, rfl, hchain⟩

/-- A rewind takes away coins that its blocks made, an adopted branch also those that its own blocks spend. -/
theorem coins_lost (h : Reachable Resting s) :
    (∀ steps r t, rewind_loop steps s = (r, t) → ∃ hashes, t.disconnected = s.disconnected ++ hashes ∧
      ∀ op, s.utxo.get op ≠ none → t.utxo.get op = none → ∃ block ∈ s.bodies hashes, block.Makes op) ∧
    ∀ fork_height branch_hashes parts sim tree,
      s.simulate_branch s.utxo.overlay.1 fork_height branch_hashes = (.ok parts, sim, tree) →
        ∀ op, s.utxo.get op ≠ none → (s.utxo.overlay.2.unoverlay sim true).get op = none →
          (∃ block ∈ s.bodies (s.chain.drop (fork_height + 1)), block.Makes op) ∨
            ∃ block ∈ s.bodies branch_hashes, block.Spends op := by
  have hok := h.sound.coins
  constructor
  · intro steps r t hrun
    obtain ⟨hashes, hlog, hcoins⟩ := rewind_loop_reorganizes hrun
    refine ⟨hashes, hlog, fun op hop hnone => ?_⟩
    rcases hcoins.lost hok hop hnone with hmade | ⟨block, hmem, -⟩
    · exact hmade
    · cases hmem
  · intro fork_height branch_hashes parts sim tree hrun op hop hnone
    exact Reorganizes.lost (adopted_reorganizes hok hrun) hok hop hnone

/-- The body at this height can be read, and it has as many transactions as its recorded undo data. -/
def Undoable (s : Chainstate) (height : ℕ) : Prop :=
  ∃ hash block undo, s.chain[height]? = some hash ∧ s.body hash = some block ∧ s.record_undo height = some undo ∧
    undo.txs.length = block.transactions.length

theorem Filed.rewind_step_iff (h : Filed s) (hlow : s.undo_start < s.tip_height) :
    (Chainstate.rewind_step s).1 = .ok () ↔ s.Undoable s.tip_height := by
  obtain ⟨undo, hu⟩ : ∃ undo, s.record_undo s.tip_height = some undo := record_undo_isSome (by omega) h.tip_height.le
  unfold Undoable Chainstate.rewind_step
  rw [(h.undo_eq hlow le_rfl).trans hu, hu]
  cases hc : s.chain[s.tip_height]? with
  | none => simp
  | some hash =>
    cases hb : s.body hash with
    | none => simp [hb]
    | some block => by_cases hlen : undo.txs.length = block.transactions.length <;> simp [hb, disconnect_block, hlen]

theorem Filed.rewind_loop_iff {steps target : ℕ} (h : Filed s) (hlow : s.undo_start ≤ target)
    (htip : s.tip_height = target + steps) : (Chainstate.rewind_loop steps s).1 = .ok () ↔
      ∀ height, target < height → height ≤ s.tip_height → s.Undoable height := by
  induction steps generalizing s with
  | zero => simpa [Chainstate.rewind_loop] using fun height h h' => absurd h (by omega)
  | succ steps ih =>
    have hstep := h.rewind_step_iff (by omega)
    rw [Chainstate.rewind_loop]
    split
    · rename_i ht
      rw [ht] at hstep
      constructor
      · intro hok
        cases hok
      · intro hall
        cases hstep.mpr (hall _ (by omega) le_rfl)
    · rename_i t ht
      rw [ht] at hstep
      have hf := h.rewind_step (t := t) (fun f hf => ?_) ht
      obtain ⟨hash, utxo, -, rfl, -⟩ := rewind_step_ok ht
      have hlen : (s.pop_tip hash utxo).tip_height = target + steps := by
        rw [hf.1.tip_height, (hf.2 rfl).1, ← h.tip_height]
        omega
      have hbelow {height : ℕ} (hlt : target < height) (hle : height ≤ target + steps) :
          (s.pop_tip hash utxo).Undoable height ↔ s.Undoable height := by
        have := h.length
        have := h.tip_height
        have hc : s.chain.dropLast[height]? = s.chain[height]? := by
          rw [List.getElem?_dropLast, if_pos (by omega)]
        have hr : s.records.dropLast[height - 1]? = s.records[height - 1]? := by
          rw [List.getElem?_dropLast, if_pos (by omega)]
        unfold Undoable record_undo
        rw [pop_tip, hc, hr]
        rfl
      rw [ih hf.1 hlow hlen, hlen, htip]
      refine ⟨fun hall height hlt hle => ?_, fun hall height hlt hle => ?_⟩
      · rcases Nat.lt_or_ge (target + steps) height with hgt | hle'
        · rw [show height = s.tip_height by omega]
          exact hstep.mp rfl
        · exact (hbelow hlt hle').mp (hall height hlt hle')
      · exact (hbelow hlt hle).mpr (hall height hlt (by omega))
      · simp only [undo_start, hf, Option.map_some, Option.getD_some] at hlow
        have := h.tip_height
        omega

theorem Filed.finish_rewind (h : Filed s) (hidle : s.pending_scripts = []) :
    ∃ u, s.finish_rewind drain_scripts = (.ok (), u) ∧ u.chain = s.chain := by
  unfold Chainstate.finish_rewind flush_coins_using
  generalize hc : s.chain.getLast?.getD s.connected = connected
  have hq : Filed { s with connected } := h.quiet ⟨.refl h.coins, rfl, rfl, rfl, rfl, rfl, rfl, rfl⟩
  obtain ⟨-, u, -, -, -, hflush, hchain⟩ := hq.sound.commits
  have hdrained : drain_scripts { s with connected } = (.ok (), { s with connected }) := by
    simp [drain_scripts, drain_pending_to, drain_pending_inner, hidle]
  rw [hdrained]
  dsimp only
  rw [hflush]
  exact ⟨u, rfl, hchain⟩

/-- Undo data is never missing: a rewind goes all the way wherever the bodies are there and fit it. -/
theorem rewind_exact (h : Reachable Resting s) (above : ∀ c ∈ s.connections, c.Above)
    (hidle : s.pending_scripts = []) {target : ℕ} (hlow : s.undo_start ≤ target) (hle : target ≤ s.tip_height) :
    (∃ t, s.rewind_connected target = (.ok (), t) ∧ t.chain = s.chain.take (target + 1)) ↔
      ∀ height, target < height → height ≤ s.tip_height → s.Undoable height := by
  obtain ⟨s₀, hs₀, hm⟩ := h.moves
  have hf := hm.filed hs₀.filed above
  have hrest : s.drop_pending_above target = s := by
    unfold drop_pending_above pending_under
    rw [hidle, List.filter_nil, ← hidle]
  rw [← hf.rewind_loop_iff hlow (Nat.add_sub_of_le hle).symm]
  unfold rewind_connected rewind_using
  rw [if_neg (above_floor hlow), hrest]
  have hft : Filed (rewind_loop (s.tip_height - target) s).2 := hf.rewind_loop fun f hf' => by
    have := (floor_le_start hf').trans hlow
    rw [← hf.tip_height]
    omega
  split
  · rename_i hrun
    simp [hrun]
  · rename_i t hrun
    obtain ⟨n, utxo, undos, rfl, hn, -⟩ := rewind_loop_popped hrun
    rw [hrun] at hft ⊢
    obtain ⟨u, hu, hchain⟩ := hft.finish_rewind hidle
    refine ⟨fun _ => rfl, fun _ => ⟨u, hu, hchain.trans ?_⟩⟩
    have := hf.length
    have := hf.tip_height
    rw [hn rfl]
    exact congrArg s.chain.take (by omega)

end

section

attribute [local instance] Platform.sample

def forked : List ChainOp := [.accept_block (mined 1 2 1) 1000, .accept_block (mined 1 12 1) 1000]

def loses_coinbase (s : Chainstate) : Bool :=
  match s.simulate_branch s.utxo.overlay.1 0 [12] with
  | (.ok _, sim, _) => (s.utxo.get ⟨102, 0⟩).isSome && ((s.utxo.overlay.2.unoverlay sim true).get ⟨102, 0⟩).isNone
  | _ => false

/-- The coinbase of block 2 goes when the branch of block 12 is adopted. -/
theorem coins_lost_fork : ∃ s, Reachable Resting s ∧
    ((∃ block ∈ s.bodies (s.chain.drop 1), block.Makes ⟨102, 0⟩) ∨ ∃ block ∈ s.bodies [12], block.Spends ⟨102, 0⟩) := by
  have hrun : (run forked sample_start).any loses_coinbase := by decide
  obtain ⟨s, hs, hfacts⟩ := (Option.any_eq_true _ _).mp hrun
  have hreach := Reachable.run (.start sample_start_resting) hs
  unfold loses_coinbase at hfacts
  split at hfacts
  · rename_i parts sim tree hsim
    simp only [Bool.and_eq_true, Option.isSome_iff_ne_none, Option.isNone_iff_eq_none] at hfacts
    exact ⟨s, hreach, (coins_lost hreach).2 0 [12] parts sim tree hsim _ hfacts.1 hfacts.2⟩
  · cases hfacts

theorem rewind_exact_flushed : ∃ s : Chainstate, s.tip_height = 1 ∧
    ((∃ t, s.rewind_connected 0 = (.ok (), t) ∧ t.chain = s.chain.take 1) ↔
      ∀ height, 0 < height → height ≤ s.tip_height → s.Undoable height) := by
  have hrun : (run [.accept_block (mined 1 2 1) 1000, .flush_coins] sample_start).any fun s =>
      s.undo_start == 0 && s.tip_height == 1 && s.connections == [⟨0, 0, none, 0⟩] &&
        s.pending_scripts.isEmpty := by decide
  obtain ⟨s, hs, hfacts⟩ := (Option.any_eq_true _ _).mp hrun
  simp only [Bool.and_eq_true, beq_iff_eq, List.isEmpty_iff] at hfacts
  obtain ⟨⟨⟨hstart, htip⟩, hconnections⟩, hidle⟩ := hfacts
  refine ⟨s, htip, rewind_exact (.run (.start sample_start_resting) hs) ?_ hidle hstart.le (Nat.zero_le _)⟩
  simp [hconnections, Connection.Above]

end

end AvilaNode.Chainstate
