import AvilaNode.ChainMoves
import AvilaNode.ConnectBlock
import AvilaNode.UndoRows

/-! Connecting and disconnecting are sequences of single writes, which leave the committed data, the commit in
flight and what the sets underneath show alone. -/

variable (block : Block)

variable (ctx : ConnectContext)

namespace AvilaNode

open Layers UtxoSet

section

variable [Platform]

namespace UtxoSet

inductive Write : UtxoSet → UtxoSet → Prop
  | put (s : UtxoSet) (op : OutPoint) (e : Option Coin) : Write s (s.put op e)
  | spend (s : UtxoSet) (op : OutPoint) : Write s (s.spend op).2
  | remove_entry (s : UtxoSet) (op : OutPoint) : Write s (s.remove_entry op)
  | note_read {s : UtxoSet} {p : Option (Delta OutPoint Coin)} (hp : s.PrefetchOk p) (op : OutPoint) :
      Write s (s.note_read op p)

abbrev Writes : UtxoSet → UtxoSet → Prop := Relation.ReflTransGen Write

variable {s t : UtxoSet}

theorem Write.ok (h : Write s t) (hs : Ok s) : Ok t := by
  cases h with
  | put op e => exact hs.put op e
  | spend op => exact (hs.spend op).1
  | remove_entry op => exact (hs.remove_entry op).1
  | note_read hp op => exact (hs.note_read hp op).1

theorem Writes.ok (h : Writes s t) (hs : Ok s) : Ok t := by
  induction h with
  | refl => exact hs
  | tail _ hw ih => exact hw.ok ih

theorem spend_keeps (s : UtxoSet) (op : OutPoint) :
    SameStore s (s.spend op).2 ∧ (s.spend op).2.base = s.base := by
  unfold UtxoSet.spend
  dsimp only
  split
  · split
    · split <;> exact ⟨⟨rfl, rfl, rfl, rfl⟩, rfl⟩
    · exact ⟨⟨rfl, rfl, rfl, rfl⟩, rfl⟩
  · split <;> exact ⟨⟨rfl, rfl, rfl, rfl⟩, rfl⟩

theorem remove_entry_keeps (s : UtxoSet) (op : OutPoint) :
    SameStore s (s.remove_entry op) ∧ (s.remove_entry op).base = s.base := by
  unfold UtxoSet.remove_entry
  dsimp only
  split <;> split <;> exact ⟨⟨rfl, rfl, rfl, rfl⟩, rfl⟩

theorem Ok.note_read_same (h : Ok s) (op : OutPoint) (p : Option (Delta OutPoint Coin)) :
    SameStores s (s.note_read op p) := by
  induction h generalizing p with
  | intro s layers base ih =>
    rcases note_read_cases s op p with he | ⟨b, hb, he⟩ | ⟨be, coin, -, -, -, -, he⟩ <;> rw [he]
    · exact .refl s
    · exact .based ⟨rfl, rfl, rfl, rfl⟩ hb rfl (ih b hb none)
    · exact .keep ⟨rfl, rfl, rfl, rfl⟩ rfl

theorem Write.same (h : Write s t) (hs : Ok s) : SameStores s t := by
  cases h with
  | put op e => exact .keep ⟨rfl, rfl, rfl, rfl⟩ rfl
  | spend op => exact .keep (spend_keeps s op).1 (spend_keeps s op).2
  | remove_entry op => exact .keep (remove_entry_keeps s op).1 (remove_entry_keeps s op).2
  | note_read hp op => exact hs.note_read_same op _

theorem Writes.same (h : Writes s t) (hs : Ok s) : SameStores s t := by
  induction h with
  | refl => exact .refl s
  | tail hw h ih => exact ih.trans (h.same (Writes.ok hw hs))

def BaseKept (s t : UtxoSet) : Prop := ∀ b, s.base = some b → ∃ c, t.base = some c ∧ c.get = b.get

theorem Write.base_kept (h : Write s t) (hs : Ok s) : BaseKept s t := by
  intro b hb
  cases h with
  | put op e => exact ⟨b, hb, rfl⟩
  | spend op => exact ⟨b, (spend_keeps s op).2.trans hb, rfl⟩
  | remove_entry op => exact ⟨b, (remove_entry_keeps s op).2.trans hb, rfl⟩
  | @note_read p hp op =>
    rcases note_read_cases s op p with he | ⟨c, hc, he⟩ | ⟨be, coin, -, -, -, -, he⟩ <;> rw [he]
    · exact ⟨b, hb, rfl⟩
    · obtain rfl := Option.some.inj (hc.symm.trans hb)
      exact ⟨_, rfl, ((hs.base hb).note_read (.none c) op).2.1⟩
    · exact ⟨b, hb, rfl⟩

theorem Writes.base_kept (h : Writes s t) (hs : Ok s) : BaseKept s t := by
  intro b hb
  induction h with
  | refl => exact ⟨b, hb, rfl⟩
  | tail hw h ih =>
    obtain ⟨c, hc, hget⟩ := ih
    obtain ⟨d, hd, hget'⟩ := h.base_kept (Writes.ok hw hs) c hc
    exact ⟨d, hd, hget'.trans hget⟩

theorem put_all_writes (es : List (OutPoint × Option Coin)) (s : UtxoSet) : Writes s (s.put_all es) := by
  induction es generalizing s with
  | nil => exact .refl
  | cons e es ih => exact (ih _).head (.put s e.1 e.2)

end UtxoSet

theorem put_coins_writes (es : List (OutPoint × Coin)) (s : UtxoSet) : Writes s (put_coins es s) := by
  induction es generalizing s with
  | nil => exact .refl
  | cons e es ih => exact (ih _).head (.put s e.1 _)

theorem remove_outputs_writes (txid : Txid) (vout : ℕ) (outs : List TxOut) (s : UtxoSet) :
    Writes s (remove_outputs txid vout outs s) := by
  induction outs generalizing s vout with
  | nil => exact .refl
  | cons out outs ih =>
    rw [remove_outputs]
    split
    · exact ih _ s
    · exact (ih _ _).head (.remove_entry s _)

variable (tx : Transaction)

theorem unapply_tx_writes (undo : TxUndo) (s : UtxoSet) : Writes s (unapply_tx tx undo s) :=
  ((remove_outputs_writes tx.txid 0 tx.outputs s).trans (put_coins_writes _ _)).trans (put_coins_writes _ _)

theorem disconnect_txs_writes (ps : List (Transaction × TxUndo)) (s : UtxoSet) : Writes s (disconnect_txs ps s) := by
  induction ps with
  | nil => exact .refl
  | cons p ps ih => exact ih.trans (unapply_tx_writes p.1 p.2 _)

theorem disconnect_block_writes (s : UtxoSet) (undo : BlockUndo) :
    Writes s (disconnect_block block s undo).2 := by
  unfold disconnect_block
  split
  · exact .refl
  · exact disconnect_txs_writes _ s

theorem rollback_writes (s : UtxoSet) (applied : List AppliedTx) :
    Writes s (rollback block s applied) := by
  unfold rollback
  induction applied with
  | nil => exact .refl
  | cons a applied ih =>
    rw [List.foldr_cons]
    split
    · exact ih.trans (unapply_tx_writes _ _ _)
    · exact ih

theorem spend_inputs_writes (ps : List (TxIn × Coin)) (s : UtxoSet) : Writes s (spend_inputs ps s) := by
  induction ps generalizing s with
  | nil => exact .refl
  | cons p ps ih => exact (ih _).head (.spend s _)

theorem add_outputs_writes (txid : Txid) (coinbase : Bool) (height : ℕ) (outs : List TxOut) (vout : ℕ)
    (undo : TxUndo) (s : UtxoSet) : Writes s (add_outputs txid coinbase height s undo vout outs).2.1 := by
  induction outs generalizing vout undo s with
  | nil => exact .refl
  | cons out outs ih =>
    rw [add_outputs]
    split
    · exact ih _ undo s
    have hput : Writes s ((s.note_read ⟨txid, vout⟩ none).put ⟨txid, vout⟩ (some ⟨out, height, coinbase⟩)) :=
      (Relation.ReflTransGen.single (.note_read (.none s) _)).tail (.put _ _ _)
    dsimp only
    split
    · split
      · exact hput.trans (ih _ _ _)
      · exact hput.tail (.put _ _ _)
    · exact hput.trans (ih _ _ _)

theorem resolve_inputs_writes {p : Option (Delta OutPoint Coin)} (inputs : List TxIn) {s : UtxoSet} (h : Reads s p) :
    Writes s (resolve_inputs p inputs s).2 := by
  induction inputs generalizing s with
  | nil => exact .refl
  | cons i inputs ih =>
    have hw : Write s (s.note_read i.previous_output p) := .note_read h.prefetch _
    have hi := ih (h.note_read i.previous_output).1
    rw [resolve_inputs]
    split
    · exact .single hw
    split
    · rename_i hm
      rw [hm] at hi
      exact hi.head hw
    · rename_i hm
      rw [hm] at hi
      exact hi.head hw

variable {env : ApplyEnv}

theorem check_tx_writes {s : UtxoSet} (fees : ℤ) (h : Reads s (some env.prefetched)) :
    Writes s (check_tx env tx s fees).2 := by
  have hr := resolve_inputs_writes tx.inputs h
  unfold check_tx check_spends check_tx_inputs_using
  split
  · exact .refl
  · cases hres : resolve_inputs (some env.prefetched) tx.inputs s with
    | mk found u =>
      rw [hres] at hr
      cases found with
      | none => exact hr
      | some coins =>
        dsimp only
        cases check_values tx env.height coins with
        | error e => exact hr
        | ok fee =>
          dsimp only
          split
          · exact hr
          · split <;> exact hr

theorem apply_tx_writes (index : ℕ) (tx : Transaction) {st : Applying} (h : Reads st.utxo (some env.prefetched)) :
    Writes st.utxo (apply_tx env index tx st).2.utxo := by
  have hc := check_tx_writes tx st.fees h
  unfold apply_tx
  cases hres : check_tx env tx st.utxo st.fees with
  | mk res u =>
    rw [hres] at hc
    cases res with
    | error e => exact hc
    | ok p =>
      dsimp only
      split
      · exact hc
      have ha := (hc.trans (spend_inputs_writes (tx.inputs.zip p.1) u)).trans
        (add_outputs_writes tx.txid tx.is_coinbase env.height tx.outputs 0
          ⟨(tx.inputs.zip p.1).map Prod.snd, []⟩ _)
      unfold UtxoSet.add_tx_outputs
      split
      · rename_i hm
        rw [hm] at ha
        exact ha
      · rename_i hm
        rw [hm] at ha
        exact ha

theorem apply_txs_writes (txs : List Transaction) (index : ℕ) {st : Applying}
    (h : Reads st.utxo (some env.prefetched)) : Writes st.utxo (apply_txs env index txs st).2.utxo := by
  induction txs generalizing index st with
  | nil => exact .refl
  | cons tx txs ih =>
    have hw := apply_tx_writes index tx h
    rw [apply_txs]
    cases ha : apply_tx env index tx st with
    | mk r st' =>
      rw [ha] at hw
      cases r with
      | error e => exact hw
      | ok u => exact hw.trans (ih _ (apply_tx_view h ha).1)

theorem connect_inner_writes {s : UtxoSet} (h : Ok s) :
    Writes s (connect_block_inner block s ctx).2 := by
  unfold connect_block_inner
  split
  · exact .refl
  rename_i height parent_mtp hpos
  split
  · exact .refl
  have hreads : Reads (start_applying s).utxo (some (apply_env block s ctx height parent_mtp).prefetched) :=
    apply_env_reads h block ctx height parent_mtp
  have hs := apply_txs_writes block.transactions 0 hreads
  dsimp only
  split
  · rename_i hm
    rw [hm] at hs
    exact hs.trans (rollback_writes _ _ _)
  · rename_i hm
    rw [hm] at hs
    split
    · exact hs
    · exact hs.trans (rollback_writes _ _ _)
    · exact hs

end

end AvilaNode

namespace AvilaNode

open Layers UtxoSet

section

variable [Platform]

structure CoinsKept (s t : UtxoSet) : Prop where
  ok : Ok t
  same : SameStores s t

variable {s : UtxoSet}

theorem CoinsKept.refl (h : Ok s) : CoinsKept s s := ⟨h, .refl s⟩

theorem UtxoSet.Writes.kept {t : UtxoSet} (h : Writes s t) (hs : Ok s) : CoinsKept s t := ⟨h.ok hs, h.same hs⟩

theorem connect_full_writes (h : Ok s) :
    Writes s (connect_block_full block s ctx).2 := by
  have hw := connect_inner_writes block ctx h
  unfold connect_block_full
  split <;> (rename_i hm; rw [hm] at hw; exact hw)

theorem connect_full_kept (h : Ok s) :
    CoinsKept s (connect_block_full block s ctx).2 := (connect_full_writes block ctx h).kept h

theorem disconnect_kept (h : Ok s) (undo : BlockUndo) :
    CoinsKept s (disconnect_block block s undo).2 := (disconnect_block_writes block s undo).kept h

theorem unoverlay_kept {sim : UtxoSet} (h : CoinsKept s.overlay.1 sim) (commit : Bool) :
    CoinsKept s (s.overlay.2.unoverlay sim commit) := by
  obtain ⟨c, hc, hsame⟩ := h.same.base (show s.overlay.1.base = some s from rfl)
  have hok : Ok c := h.ok.base hc
  refine ⟨unoverlay_ok h.ok hc _ commit, ?_⟩
  unfold UtxoSet.unoverlay
  rw [hc]
  dsimp only
  split
  · exact hsame.trans ((put_all_writes _ c).same hok)
  · exact hsame

theorem get_unoverlay {sim : UtxoSet} (h : Ok s) (hw : Writes s.overlay.1 sim) :
    (s.overlay.2.unoverlay sim false).get = s.get := by
  obtain ⟨c, hc, hget⟩ := hw.base_kept (overlay_ok h) s rfl
  unfold UtxoSet.unoverlay
  rw [hc]
  exact hget

namespace Chainstate

theorem simulate_disconnect_writes (s : Chainstate) (fork_height above : ℕ) (sim : UtxoSet) :
    Writes sim (s.simulate_disconnect fork_height above sim).2 := by
  induction above generalizing sim with
  | zero => exact .refl
  | succ above ih =>
    rw [simulate_disconnect]
    split
    · exact .refl
    split
    · exact .refl
    rename_i block _ _ undo _
    have hd := disconnect_block_writes block sim undo
    split
    · rename_i hm
      rw [hm] at hd
      exact hd
    · rename_i hm
      rw [hm] at hd
      exact hd.trans (ih _)

variable {sim : UtxoSet}

theorem simulate_connect_writes (s : Chainstate) (branch_hashes : List BlockHash) (h : Ok sim) :
    Writes sim (s.simulate_connect branch_hashes sim).2.1 := by
  induction branch_hashes generalizing sim with
  | nil => exact .refl
  | cons hash branch_hashes ih =>
    rw [simulate_connect]
    split
    · exact .refl
    rename_i block _
    have hc := connect_full_writes block (s.context hash false) h
    dsimp only
    split
    · rename_i hm
      rw [hm] at hc
      exact hc
    · rename_i hm
      rw [hm] at hc
      have hi := ih (hc.ok h)
      split
      · rename_i hr
        rw [hr] at hi
        exact hc.trans hi
      · rename_i hr
        rw [hr] at hi
        exact hc.trans hi

theorem simulate_branch_writes (s : Chainstate) (h : Ok sim) (fork_height : ℕ) (branch_hashes : List BlockHash) :
    Writes sim (s.simulate_branch sim fork_height branch_hashes).2.1 := by
  have hd := simulate_disconnect_writes s fork_height (s.tip_height - fork_height) sim
  unfold simulate_branch
  split
  · rename_i hm
    rw [hm] at hd
    exact hd
  · rename_i hm
    rw [hm] at hd
    have hc := simulate_connect_writes s branch_hashes (hd.ok h)
    split
    · rename_i hr
      rw [hr] at hc
      exact hd.trans hc
    · rename_i hr
      rw [hr] at hc
      exact hd.trans hc

theorem simulate_branch_kept (s : Chainstate) (h : Ok sim) (fork_height : ℕ) (branch_hashes : List BlockHash) :
    CoinsKept sim (s.simulate_branch sim fork_height branch_hashes).2.1 :=
  (simulate_branch_writes s h fork_height branch_hashes).kept h

theorem simulated_kept {s : Chainstate} {r : Except ConnectError (List (BlockRecord × BlockReceipt))}
    {tree : HeaderTree} {fork_height : ℕ} {branch_hashes : List BlockHash} (h : Ok s.utxo)
    (simulated : s.simulate_branch s.utxo.overlay.1 fork_height branch_hashes = (r, sim, tree)) (commit : Bool) :
    CoinsKept s.utxo (s.utxo.overlay.2.unoverlay sim commit) := by
  have hk := simulate_branch_kept s (overlay_ok h) fork_height branch_hashes
  rw [simulated] at hk
  exact unoverlay_kept hk commit

end Chainstate

end

end AvilaNode
