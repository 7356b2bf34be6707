import AvilaNode.ConnectView

/-! A block connected and disconnected restores the coins; a failed one restores them unless the
overwrite guard stopped it. -/

namespace AvilaNode

open Layers Ledger UtxoSet

section

variable [Platform]

theorem prefetch_backend_ok (s : UtxoSet) (ops : List OutPoint) : s.PrefetchOk (some (s.prefetch_backend ops)) := by
  intro be rows hb hr op e hop
  cases hr
  unfold prefetch_backend at hop
  rw [hb] at hop
  generalize (ops.filter fun op => s.backend_read_visible op && !s.clean_has op) = kept at hop
  by_cases hk : op ∈ kept
  · rw [lookup_insertAll_of_mem _ _ op (be.get op) (List.mem_map.mpr ⟨op, hk, rfl⟩)] at hop
    · exact Option.some.inj hop
    · intro w hw
      obtain ⟨a, -, ha⟩ := List.mem_map.mp hw
      cases ha
      rfl
  · rw [lookup_insertAll_of_notMem] at hop
    · cases hop
    · intro w hw
      obtain ⟨a, ha, he⟩ := List.mem_map.mp hw
      cases he
      exact hk ha

theorem prefetch_ok (block : Block) (s : UtxoSet) : s.PrefetchOk (some (prefetch block s)) := by
  unfold prefetch
  split
  · intro be rows _ hr op e hop
    cases hr
    cases hop
  · exact prefetch_backend_ok s _

variable {s t : UtxoSet} {undos : List TxUndo} {env : ApplyEnv} {st : Applying} {block : Block}
  {ctx : ConnectContext} {undo : BlockUndo}

theorem apply_env_reads (h : Ok s) (block : Block) (ctx : ConnectContext) (height parent_mtp : ℕ) :
    Reads s (some (apply_env block s ctx height parent_mtp).prefetched) :=
  ⟨h, prefetch_ok block s⟩

def TouchedBy (height : ℕ) (txs : List Transaction) (op : OutPoint) : Prop :=
  ∃ tx ∈ txs, op ∈ (tx_step tx height).takes ∨ op ∈ (tx_step tx height).makes.map Prod.fst

theorem touches_iff {height : ℕ} {v : View OutPoint Coin} {txs : List Transaction} (hl : undos.length = txs.length)
    (h : RecordsAll v (tx_steps height txs undos)) {op : OutPoint} :
    Touches (tx_steps height txs undos) op ↔ TouchedBy height txs op := by
  rw [h.touches, TouchedBy]
  constructor
  · rintro ⟨x, hx, hop⟩
    obtain ⟨q, hq, rfl⟩ := List.mem_map.mp hx
    exact ⟨q.1, (List.of_mem_zip hq).1, hop⟩
  · rintro ⟨tx, htx, hop⟩
    have hfst : (txs.zip undos).map Prod.fst = txs := List.map_fst_zip (by omega)
    rw [← hfst] at htx
    obtain ⟨q, hq, rfl⟩ := List.mem_map.mp htx
    exact ⟨_, List.mem_map.mpr ⟨q, hq, rfl⟩, hop⟩

/-- The transaction at which the overwrite guard stops the block, with the state it was reached in. -/
structure GuardStop (block : Block) (s : UtxoSet) (ctx : ConnectContext) (env : ApplyEnv)
    (pre : List Transaction) (tx : Transaction) (st : Applying) : Prop where
  position : ∃ parent_mtp, block_position ctx = .ok (env.height, parent_mtp) ∧
    env = apply_env block s ctx env.height parent_mtp
  scanned : bip30_scan block s ctx env.height = none
  reached : apply_txs env 0 pre (start_applying s) = (.ok (), st)
  collides : Collides env tx st

/-- The guard stops the block at a transaction whose partial application changes a coin that no
earlier transaction of the block touches. -/
def GuardLeaks (block : Block) (s : UtxoSet) (ctx : ConnectContext) : Prop :=
  ∃ env pre tx post st, block.transactions = pre ++ tx :: post ∧ GuardStop block s ctx env pre tx st ∧
    ∃ op, ¬ TouchedBy env.height pre op ∧ partial_view tx env.height st.utxo.get op ≠ st.utxo.get op

variable {u : UtxoSet} {post : List Transaction} {pre : List Transaction} {e : ConnectError}

theorem Prefix.rollback (h : Prefix env s pre undos st) (hb : block.transactions = pre ++ post) (hu : Ok u) :
    Ok (rollback block u st.applied) ∧ ((rollback block u st.applied).get = s.get ↔
      ∀ op, ¬ TouchedBy env.height pre op → u.get op = st.utxo.get op) := by
  have hr := rollback_eq undos h.length [] (by simpa using hb) u
  simp only [List.length_nil, Nat.zero_add] at hr
  obtain ⟨hok, hg⟩ := disconnect_txs_view env.height pre undos hu
  rw [h.applied, hr]
  refine ⟨hok, ?_⟩
  rw [hg, h.records.back_from, h.view]
  simp only [touches_iff h.length h.records]

theorem Prefix.rollback_clean (h : Prefix env s pre undos st) (hb : block.transactions = pre ++ post) (hu : Ok u)
    (hg : u.get = st.utxo.get) :
    Ok (AvilaNode.rollback block u st.applied) ∧ (AvilaNode.rollback block u st.applied).get = s.get := by
  obtain ⟨hok, hiff⟩ := h.rollback hb hu
  exact ⟨hok, hiff.mpr fun op _ => congrFun hg op⟩

theorem connect_inner_ok (h : Ok s) {pending : Option (List QueuedCheck)} {rec : BlockReceipt}
    (hc : connect_block_inner block s ctx = (.ok (undo, pending, rec), t)) :
    ∃ env st, (∃ parent_mtp, block_position ctx = .ok (env.height, parent_mtp) ∧
        env = apply_env block s ctx env.height parent_mtp) ∧
      Prefix env s block.transactions undo.txs st ∧ t = st.utxo ∧ finish_block env block st = .ok pending := by
  unfold connect_block_inner at hc
  cases hpos : block_position ctx with
  | error e => simp [hpos] at hc
  | ok p =>
    obtain ⟨height, parent_mtp⟩ := p
    rw [hpos] at hc
    dsimp only at hc
    cases hscan : bip30_scan block s ctx height with
    | some op => simp [hscan] at hc
    | none =>
      rw [hscan] at hc
      cases hrun : apply_txs (apply_env block s ctx height parent_mtp) 0 block.transactions (start_applying s) with
      | mk r st =>
        rw [hrun] at hc
        cases r with
        | error e => cases hc
        | ok u =>
          dsimp only at hc
          obtain ⟨undos, hpre⟩ := apply_txs_prefix (apply_env_reads h block ctx height parent_mtp) _ hrun
          cases hfin : finish_block (apply_env block s ctx height parent_mtp) block st with
          | panicked => simp [hfin] at hc
          | err e => simp [hfin] at hc
          | ok pend =>
            rw [hfin] at hc
            cases hc
            refine ⟨apply_env block s ctx height parent_mtp, st, ⟨parent_mtp, rfl, rfl⟩, ?_, rfl, hfin⟩
            have hu : st.applied.map AppliedTx.undo = undos := by
              rw [hpre.applied]
              apply List.ext_getElem
              · simp
              · intro i h1 h2
                simp
            rw [hu]
            exact hpre

theorem Prefix.disconnect (h : Prefix env s block.transactions undo.txs st) (hu : Ok u) (hg : u.get = st.utxo.get) :
    ∃ t, disconnect_block block u undo = (.ok (), t) ∧ Ok t ∧ t.get = s.get := by
  obtain ⟨hok, hv⟩ := disconnect_txs_view env.height block.transactions undo.txs hu
  refine ⟨disconnect_txs (block.transactions.zip undo.txs) u, ?_, hok, ?_⟩
  · simp [disconnect_block, h.length]
  · rw [hv, hg, h.view, h.records.back_after]

theorem connect_block_ok (hc : connect_block block s ctx = (.ok undo, t)) :
    ∃ pending rec, connect_block_inner block s ctx = (.ok (undo, pending, rec), t) := by
  unfold connect_block at hc
  split at hc
  · cases hc
  · cases hc
  · cases hc
    exact ⟨none, _, by assumption⟩
  · split at hc
    · cases hc
      exact ⟨_, _, by assumption⟩
    · cases hc

/-- Disconnecting a block that connected restores the visible coins. -/
theorem disconnect_connect (hs : Reachable s) (hc : connect_block block s ctx = (.ok undo, t)) :
    ∃ u, disconnect_block block t undo = (.ok (), u) ∧ u.get = s.get := by
  obtain ⟨pending, rec, hin⟩ := connect_block_ok hc
  obtain ⟨env, st, -, hpre, rfl, -⟩ := connect_inner_ok hs.ok hin
  obtain ⟨u, hu, -, hg⟩ := hpre.disconnect hpre.reads.ok rfl
  exact ⟨u, hu, hg⟩

theorem GuardStop.stopped {tx : Transaction} (h : Ok s) (hb : block.transactions = pre ++ tx :: post)
    (hg : GuardStop block s ctx env pre tx st) :
    ∃ e t, connect_block_inner block s ctx = (.err e, t) ∧
      (t.get = s.get ↔ ∀ op, ¬ TouchedBy env.height pre op →
        partial_view tx env.height st.utxo.get op = st.utxo.get op) := by
  obtain ⟨⟨parent_mtp, hpos, henv⟩, hscan, hrun, hcol⟩ := hg
  have hreads : Reads s (some env.prefetched) := by
    rw [henv]
    exact apply_env_reads h block ctx env.height parent_mtp
  obtain ⟨undos, hpre⟩ := apply_txs_prefix hreads pre hrun
  cases hx : apply_tx env (0 + pre.length) tx st with
  | mk r st' =>
    obtain ⟨hr, hcase⟩ := apply_tx_view hpre.reads hx
    cases r with
    | ok u => exact absurd hcol hcase.1
    | error e =>
      obtain ⟨happ, ⟨hn, -⟩ | ⟨-, hview⟩⟩ := hcase
      · exact absurd hcol hn
      have hall : apply_txs (apply_env block s ctx env.height parent_mtp) 0 block.transactions
          (start_applying s) = (.error e, st') := by
        rw [← henv, hb, apply_txs_append, hrun]
        dsimp only
        rw [apply_txs, hx]
      refine ⟨e, rollback block st'.utxo st'.applied, ?_, ?_⟩
      · simp only [connect_block_inner, hpos, hscan, hall]
      · rw [happ, (hpre.rollback hb hr.ok).2, hview]

theorem connect_inner_err (h : Ok s) (hc : connect_block_inner block s ctx = (.err e, t)) :
    t.get = s.get ∨ ∃ env pre tx post st, block.transactions = pre ++ tx :: post ∧
      GuardStop block s ctx env pre tx st := by
  unfold connect_block_inner at hc
  cases hpos : block_position ctx with
  | error e' =>
    rw [hpos] at hc
    cases hc
    exact Or.inl rfl
  | ok p =>
    obtain ⟨height, parent_mtp⟩ := p
    rw [hpos] at hc
    dsimp only at hc
    cases hscan : bip30_scan block s ctx height with
    | some op =>
      rw [hscan] at hc
      cases hc
      exact Or.inl rfl
    | none =>
      rw [hscan] at hc
      have hreads := apply_env_reads h block ctx height parent_mtp
      cases hrun : apply_txs (apply_env block s ctx height parent_mtp) 0 block.transactions (start_applying s) with
      | mk r st =>
        rw [hrun] at hc
        cases r with
        | error e' =>
          cases hc
          obtain ⟨pre, tx, post, st₀, hb, hp, hx⟩ := apply_txs_error hrun
          obtain ⟨undos, hpre⟩ := apply_txs_prefix hreads pre hp
          obtain ⟨hr, happ, ⟨-, hview⟩ | ⟨hcol, -⟩⟩ := apply_tx_view hpre.reads hx
          · left
            rw [happ]
            exact (hpre.rollback_clean hb hr.ok hview).2
          · exact Or.inr ⟨_, pre, tx, post, st₀, hb, ⟨parent_mtp, hpos, rfl⟩, hscan, hp, hcol⟩
        | ok u =>
          dsimp only at hc
          cases hfin : finish_block (apply_env block s ctx height parent_mtp) block st with
          | panicked => simp [hfin] at hc
          | ok pend => simp [hfin] at hc
          | err e' =>
            rw [hfin] at hc
            cases hc
            obtain ⟨undos, hpre⟩ := apply_txs_prefix hreads _ hrun
            have hb : block.transactions = block.transactions ++ [] := (List.append_nil _).symm
            exact Or.inl (hpre.rollback_clean hb hpre.reads.ok rfl).2

theorem connect_block_err (h : Ok s) (hc : connect_block block s ctx = (.err e, t)) :
    connect_block_inner block s ctx = (.err e, t) ∨ t.get = s.get := by
  unfold connect_block at hc
  split at hc
  · cases hc
  · rename_i hin
    cases hc
    exact Or.inl hin
  · cases hc
  · rename_i hin
    split at hc
    · cases hc
    · cases hc
      obtain ⟨env, st, -, hpre, rfl, -⟩ := connect_inner_ok h hin
      obtain ⟨u, hu, -, hg⟩ := hpre.disconnect hpre.reads.ok rfl
      rw [hu]
      exact Or.inr hg

/-- A failed call leaves the visible coins alone exactly when the guard does not leak. -/
theorem connect_block_atomic_iff (hs : Reachable s) :
    (∀ e t, connect_block block s ctx = (.err e, t) → t.get = s.get) ↔ ¬ GuardLeaks block s ctx := by
  constructor
  · rintro hatomic ⟨env, pre, tx, post, st, hb, hg, op, hop, hne⟩
    obtain ⟨e, t, hin, hiff⟩ := hg.stopped hs.ok hb
    have hc : connect_block block s ctx = (.err e, t) := by simp only [connect_block, hin]
    exact hne (hiff.mp (hatomic e t hc) op hop)
  · intro hclean e t hc
    rcases connect_block_err hs.ok hc with hin | hg
    · rcases connect_inner_err hs.ok hin with hg | ⟨env, pre, tx, post, st, hb, hg⟩
      · exact hg
      obtain ⟨e', t', hin', hiff⟩ := hg.stopped hs.ok hb
      rw [hin] at hin'
      obtain rfl : t = t' := (Prod.mk.inj hin').2
      apply hiff.mpr
      intro op hop
      by_contra hne
      exact hclean ⟨env, pre, tx, post, st, hb, hg, op, hop, hne⟩
    · exact hg

end

section

attribute [local instance] Platform.sample

def sample_context : ConnectContext where
  params := sample_params
  tree := ((HeaderTree.new sample_params).insert (sample_header 1 2 7) 2).2
  block_hash := 2
  script_checks := true
  script_pool := true
  scripts_verified _ _ := false

def sample_coinbase : Transaction := ⟨1, [⟨OutPoint.NULL, [1, 1], 0xffffffff, []⟩], [⟨5000000000, []⟩], 100⟩

def sample_spend : Transaction := ⟨1, [⟨sample_outpoint, [], 0xffffffff, []⟩], [⟨3, []⟩], 7⟩

def sample_block : Block := ⟨sample_header 1 2 7, [sample_coinbase, sample_spend]⟩

def sample_set : UtxoSet := new.put sample_outpoint (some sample_coin)

theorem sample_set_reachable : Reachable sample_set := .step (.put _ _) .new rfl

theorem sample_connects : connect_block sample_block sample_set sample_context =
    (.ok ⟨[⟨[], []⟩, ⟨[sample_coin], []⟩]⟩, (connect_block sample_block sample_set sample_context).2) :=
  Prod.ext (by decide) rfl

theorem disconnect_connect_spend : ∃ undo t u, connect_block sample_block sample_set sample_context = (.ok undo, t) ∧
    disconnect_block sample_block t undo = (.ok (), u) ∧ u.get = sample_set.get := by
  obtain ⟨u, hu, hg⟩ := disconnect_connect sample_set_reachable sample_connects
  exact ⟨_, _, u, sample_connects, hu, hg⟩

theorem connect_block_leaks : ¬ ∀ (block : Block) (s : UtxoSet) (ctx : ConnectContext), Reachable s →
    ∀ e t, connect_block block s ctx = (.err e, t) → t.get = s.get := by
  intro h
  have hs : Reachable (sample_set.put ⟨7, 0⟩ (some sample_coin)) := .step (.put _ _) sample_set_reachable rfl
  have hc : (connect_block sample_block (sample_set.put ⟨7, 0⟩ (some sample_coin)) sample_context).1 =
      .err (.Internal OVERWRITE_MESSAGE) := by decide
  have hg := congrFun (h _ _ _ hs _ _ (Prod.ext hc rfl)) sample_outpoint
  revert hg
  decide

theorem connect_block_atomic_spend :
    (∀ e t, connect_block sample_block sample_set sample_context = (.err e, t) → t.get = sample_set.get) ↔
      ¬ GuardLeaks sample_block sample_set sample_context :=
  connect_block_atomic_iff sample_set_reachable

end

end AvilaNode
