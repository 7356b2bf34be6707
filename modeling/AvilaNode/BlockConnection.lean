import AvilaNode.ReplacementFees

/-! What a connected block takes out of the pool, and what the fee estimator hears of it. -/

namespace AvilaNode

open Layers Relation

structure FeeEstimator where
  samples : List (ℤ × ℕ)
  capacity : ℕ

namespace FeeEstimator

def new : FeeEstimator := ⟨[], 4096⟩

def observe (estimator : FeeEstimator) (rate_sat_per_kvb : ℤ) (blocks_to_confirm : ℕ) : FeeEstimator :=
  let samples := if estimator.capacity ≤ estimator.samples.length then estimator.samples.tail else estimator.samples
  { estimator with samples := samples ++ [(rate_sat_per_kvb, blocks_to_confirm)] }

end FeeEstimator

namespace Mempool

def observation (conf_height : ℕ) (entry : MempoolEntry) : ℤ × ℕ :=
  (Int.tdiv (entry.fee * 1000) (max entry.vsize 1 : ℕ), max (conf_height - entry.first_seen_height) 1)

section

variable [Platform]

def dead (m : Mempool) (block : Block) : List (Txid × RemovalCause) := block.transactions.flatMap m.dead_by

def feed_estimator (m : Mempool) (estimator : FeeEstimator) (block : Block) (conf_height : ℕ) : FeeEstimator :=
  (m.dead block).foldl
    (fun estimator row =>
      match m.map.lookup row.1 with
      | none => estimator
      | some entry => estimator.observe (observation conf_height entry).1 (observation conf_height entry).2) estimator

def observations (m : Mempool) (block : Block) (conf_height : ℕ) : List (ℤ × ℕ) :=
  ((m.dead block).filterMap fun row => m.map.lookup row.1).map (observation conf_height)

def block_txids (block : Block) : List Txid := block.transactions.map Platform.txid

def confirmed (m : Mempool) (block : Block) : List Txid := ((block_txids block).filter m.contains).dedup

def Conflicted (m : Mempool) (block : Block) (id : Txid) : Prop :=
  id ∉ block_txids block ∧ ∃ entry, m.map.lookup id = some entry ∧
    ∃ tx ∈ block.transactions, tx.is_coinbase = false ∧
      ∃ input ∈ tx.inputs, input.previous_output ∈ entry.tx.inputs.map TxIn.previous_output

def LeavesExactly (m : Mempool) (block : Block) (conf_height : ℕ) : Prop :=
  ∀ id, (m.on_block_connected block conf_height).contains id ↔
    m.contains id ∧ id ∉ block_txids block ∧ ¬ ∃ c, Conflicted m block c ∧ ReflTransGen m.Child c id

structure ConfirmsExactly (m : Mempool) (block : Block) (conf_height : ℕ) : Prop where
  leaves : LeavesExactly m block conf_height
  causes : ∀ events, (m.on_block_connected block conf_height).lifecycle = m.lifecycle ++ events →
    ∀ e ∈ events, e.cause = .Confirmed ↔ e.txid ∈ block_txids block
  samples : (m.observations block conf_height).Perm
    (((m.confirmed block).filterMap m.map.lookup).map (observation conf_height))

def NamesSpends (m : Mempool) (block : Block) : Prop :=
  ∀ tx ∈ block.transactions, ∀ entry, m.map.lookup (Platform.txid tx) = some entry →
    entry.tx.inputs.map TxIn.previous_output = tx.inputs.map TxIn.previous_output

def Apart (m : Mempool) (block : Block) : Prop :=
  ∀ tx ∈ block.transactions, tx.is_coinbase = false →
    ∀ input ∈ tx.inputs, m.spends.lookup input.previous_output = none

variable {m : Mempool} {block : Block}

variable {row : Txid × RemovalCause}

theorem mem_dead : row ∈ m.dead block ↔ ∃ tx ∈ block.transactions,
    (row = (Platform.txid tx, .Confirmed) ∧ m.contains (Platform.txid tx)) ∨
      tx.is_coinbase = false ∧ row.2 = .BlockConflict ∧
        ∃ input ∈ tx.inputs, m.spends.lookup input.previous_output = some row.1 := by
  unfold dead dead_by
  rw [List.mem_flatMap]
  refine exists_congr fun tx => and_congr_right fun _ => ?_
  rw [List.mem_append]
  apply or_congr
  · split
    · next h => rw [List.mem_singleton, and_iff_left h]
    · next h => simp only [List.not_mem_nil, h, Bool.false_eq_true, and_false]
  · split
    · next h => simp only [List.not_mem_nil, h, Bool.true_eq_false, false_and]
    · next h =>
      rw [List.mem_map, Bool.eq_false_of_not_eq_true h]
      constructor
      · rintro ⟨id, hid, rfl⟩
        obtain ⟨input, hinput, hspends⟩ := List.mem_filterMap.mp hid
        exact ⟨rfl, rfl, input, hinput, hspends⟩
      · rintro ⟨-, hcause, input, hinput, hspends⟩
        exact ⟨row.1, List.mem_filterMap.mpr ⟨input, hinput, hspends⟩, by rw [← hcause]⟩

theorem Indexes.dead_pooled (h : Indexes m) (hrow : row ∈ m.dead block) :
    ∃ entry, m.map.lookup row.1 = some entry := by
  obtain ⟨tx, -, ⟨rfl, hpooled⟩ | ⟨-, -, input, -, hspends⟩⟩ := mem_dead.mp hrow
  · exact Option.isSome_iff_exists.mp hpooled
  · obtain ⟨entry, hentry, -⟩ := (h.spends _ _).mp hspends
    exact ⟨entry, hentry⟩

def spenders (m : Mempool) (tx : Transaction) : List Txid :=
  if tx.is_coinbase then [] else tx.inputs.filterMap fun input => m.spends.lookup input.previous_output

theorem dead_length (m : Mempool) (block : Block) : (m.dead block).length =
    ((block_txids block).filter m.contains).length + (block.transactions.flatMap m.spenders).length := by
  unfold dead block_txids
  induction block.transactions with
  | nil => rfl
  | cons tx txs ih =>
    have hspenders : (if tx.is_coinbase then [] else
        (tx.inputs.filterMap fun input => m.spends.lookup input.previous_output).map fun txid =>
          (txid, RemovalCause.BlockConflict)).length = (m.spenders tx).length := by
      unfold spenders
      split
      · rfl
      · rw [List.length_map]
    rw [List.flatMap_cons, List.length_append, ih, List.flatMap_cons, List.length_append, List.map_cons,
      List.filter_cons,
      dead_by, List.length_append, hspenders]
    split
    · rw [List.length_singleton, List.length_cons]
      omega
    · rw [List.length_nil]
      omega

omit [Platform] in
theorem spenders_nil_iff : block.transactions.flatMap m.spenders = [] ↔ Apart m block := by
  unfold Apart spenders
  rw [List.flatMap_eq_nil_iff]
  refine forall₂_congr fun tx _ => ?_
  cases tx.is_coinbase with
  | true => simp only [if_true, Bool.true_eq_false, false_implies]
  | false =>
    rw [if_neg Bool.false_ne_true, List.filterMap_eq_nil_iff]
    exact ⟨fun h _ => h, fun h => h rfl⟩

theorem Indexes.observations_length (h : Indexes m) (block : Block) (conf_height : ℕ) :
    (m.observations block conf_height).length = (m.dead block).length := by
  have hall : ∀ rows : List (Txid × RemovalCause), (∀ row ∈ rows, ∃ entry, m.map.lookup row.1 = some entry) →
      (rows.filterMap fun row => m.map.lookup row.1).length = rows.length := by
    intro rows
    induction rows with
    | nil => exact fun _ => rfl
    | cons row rows ih =>
      intro hrows
      obtain ⟨entry, hentry⟩ := hrows row List.mem_cons_self
      rw [List.filterMap_cons, hentry, List.length_cons, List.length_cons]
      exact congrArg Nat.succ (ih fun row hrow => hrows row (List.mem_cons_of_mem _ hrow))
  unfold observations
  rw [List.length_map]
  exact hall _ fun row hrow => h.dead_pooled hrow

theorem Indexes.apart_of_samples (h : Indexes m) {conf_height : ℕ} (hsamples : (m.observations block conf_height).Perm
    (((m.confirmed block).filterMap m.map.lookup).map (observation conf_height))) : Apart m block := by
  have hlength := hsamples.length_eq
  rw [h.observations_length, dead_length, List.length_map] at hlength
  have hconfirmed : ((m.confirmed block).filterMap m.map.lookup).length ≤
    ((block_txids block).filter m.contains).length :=
    (List.length_filterMap_le _ _).trans (List.dedup_sublist _).length_le
  apply spenders_nil_iff.mp
  apply List.eq_nil_of_length_eq_zero
  omega

def Spending (m : Mempool) : Prop :=
  ∀ id entry, m.map.lookup id = some entry → entry.tx.inputs ≠ [] ∧ entry.tx.is_coinbase = false

omit [Platform] in
theorem Spending.same {t : Mempool} (h : Spending m) (hs : SameTxs m t) : Spending t := by
  intro id entry he
  obtain ⟨entry', he', htx, -⟩ := hs.lookup he
  rw [← htx]
  exact h id entry' he'

omit [Platform] in
theorem Spending.shrinks {t : Mempool} (h : Spending m) (hs : Shrinks m t) : Spending t := by
  intro id entry he
  obtain ⟨entry', he', hbody⟩ := hs.lookup he
  rw [← MempoolEntry.tx_of_body hbody]
  exact h id entry' he'

omit [Platform] in
theorem inputs_of_check {tx : Transaction} (h : check_transaction tx = .ok ()) : tx.inputs ≠ [] := by
  intro hnil
  unfold check_transaction at h
  rw [if_pos hnil] at h
  cases h

theorem Spending.run [PoolPolicy] (hm : Reachable m) : Spending m := by
  have hkeeps : Keeps Spending fun _ => True := by
    apply Keeps.of_remove_inner
    · exact fun hs h => h.same hs.same_txs
    · exact fun txid cause now height h => h.shrinks (.remove_inner _ _ _ _ _)
    · intro m tx cs c now high trimmed _ _ hc _ h
      refine Spending.same ?_ (SumsOnly.pool_entry _ tx cs c now).same_txs
      intro id entry he
      change (AList.insert _ _ _).lookup id = _ at he
      rw [lookup_insert_eq] at he
      split at he
      · cases he
        obtain ⟨hcheck, hcoinbase, -⟩ := check_alone_ok (examine_ok hc).alone
        exact ⟨inputs_of_check hcheck, hcoinbase⟩
      · exact h id entry he
  induction hm with
  | new => exact fun id entry he => by cases he
  | @step m _ op _ ih =>
    apply hkeeps.apply ih fun _ _ => trivial
    intro hop
    rcases edits_same m hop with ⟨txid, rfl⟩ | hs
    · exact ih.shrinks (.remove_inner m txid .Explicit 0 0)
    · exact ih.same hs

omit [Platform] in
theorem is_coinbase_congr {tx tx' : Transaction}
    (h : tx.inputs.map TxIn.previous_output = tx'.inputs.map TxIn.previous_output) : tx.is_coinbase =
      tx'.is_coinbase := by
  unfold Transaction.is_coinbase
  generalize tx.inputs = inputs at h ⊢
  generalize tx'.inputs = inputs' at h ⊢
  rcases inputs with _ | ⟨input, _ | ⟨next, inputs⟩⟩ <;> rcases inputs' with _ | ⟨input',
    _ | ⟨next', inputs'⟩⟩ <;> simp_all

theorem dead_nil (hm : Indexes m) (hspending : Spending m) (hnames : NamesSpends m block) (h : Apart m block) :
    m.dead block = [] := by
  refine List.eq_nil_iff_forall_not_mem.mpr fun row hrow => ?_
  obtain ⟨tx, htx, ⟨rfl, hpooled⟩ | ⟨hcoinbase, -, input, hinput, hspends⟩⟩ := mem_dead.mp hrow
  · obtain ⟨entry, hentry⟩ := Option.isSome_iff_exists.mp hpooled
    have hops := hnames tx htx entry hentry
    obtain ⟨hne, hcoinbase⟩ := hspending _ entry hentry
    rw [is_coinbase_congr hops] at hcoinbase
    obtain ⟨input, hinput⟩ := List.exists_mem_of_ne_nil _ hne
    have hop : input.previous_output ∈ tx.inputs.map TxIn.previous_output := by
      rw [← hops]
      exact List.mem_map_of_mem hinput
    obtain ⟨input', hinput', heq⟩ := List.mem_map.mp hop
    have hspends := (hm.spends _ _).mpr ⟨entry, hentry, List.mem_map_of_mem hinput⟩
    rw [← heq, h tx htx hcoinbase input' hinput'] at hspends
    cases hspends
  · rw [h tx htx hcoinbase input hinput] at hspends
    cases hspends

theorem Indexes.conflicted_dead (hm : Indexes m) {c : Txid} (h : Conflicted m block c) :
    (c, .BlockConflict) ∈ m.dead block := by
  obtain ⟨-, entry, hentry, tx, htx, hcoinbase, input, hinput, hop⟩ := h
  exact mem_dead.mpr ⟨tx, htx, .inr ⟨hcoinbase, rfl, input, hinput, (hm.spends _ _).mpr ⟨entry, hentry, hop⟩⟩⟩

theorem confirmed_dead {id : Txid} (h : id ∈ m.confirmed block) : (id, .Confirmed) ∈ m.dead block := by
  unfold confirmed block_txids at h
  obtain ⟨hid, hpooled⟩ := List.mem_filter.mp (List.mem_dedup.mp h)
  obtain ⟨tx, htx, rfl⟩ := List.mem_map.mp hid
  exact mem_dead.mpr ⟨tx, htx, .inl ⟨rfl, hpooled⟩⟩

theorem mem_confirmed {id : Txid} : id ∈ m.confirmed block ↔ id ∈ block_txids block ∧ m.contains id := by
  unfold confirmed
  rw [List.mem_dedup, List.mem_filter]

theorem confirms_of_dead_nil (hm : Indexes m) (h : m.dead block = []) (conf_height : ℕ) :
    ConfirmsExactly m block conf_height := by
  have hafter : m.on_block_connected block conf_height = { m with
      block_since_rolling_fee_bump := true
      deltas := eraseAll m.deltas (block_txids block) } := by
    unfold on_block_connected
    rw [show block.transactions.flatMap m.dead_by = [] from h]
    rfl
  have hconfirmed : m.confirmed block = [] := by
    refine List.eq_nil_iff_forall_not_mem.mpr fun id hid => ?_
    have hrow := confirmed_dead hid
    rw [h] at hrow
    cases hrow
  refine ⟨fun id => ?_, fun events hevents e he => ?_, ?_⟩
  · rw [hafter]
    refine ⟨fun hpooled => ⟨hpooled, fun hid => ?_, ?_⟩, And.left⟩
    · have hmem : id ∈ m.confirmed block := mem_confirmed.mpr ⟨hid, hpooled⟩
      rw [hconfirmed] at hmem
      cases hmem
    · rintro ⟨c, hc, -⟩
      have hrow := hm.conflicted_dead hc
      rw [h] at hrow
      cases hrow
  · rw [hafter] at hevents
    rw [List.self_eq_append_right.mp hevents] at he
    cases he
  · unfold observations
    rw [h, hconfirmed]
    exact .nil

theorem remove_rows_closed (rows : List (Txid × RemovalCause)) (height : ℕ) (hm : Indexes m) (hacyclic : Acyclic m) :
    Closed m (rows.foldl (fun m row => m.remove_recursive_inner row.1 row.2 0 height) m) ∧
    (∀ row ∈ rows, (rows.foldl (fun m row => m.remove_recursive_inner row.1 row.2 0 height) m).body row.1 = none) ∧
    ∀ id, m.body id ≠ none →
      (rows.foldl (fun m row => m.remove_recursive_inner row.1 row.2 0 height) m).body id = none →
      ∃ row ∈ rows, ReflTransGen m.Child row.1 id := by
  induction rows generalizing m with
  | nil => exact ⟨.refl m, fun _ h => absurd h List.not_mem_nil, fun _ hid hgone => absurd hgone hid⟩
  | cons row rows ih =>
    have hfirst := remove_recursive_takes hm hacyclic row.1 row.2 0 height
    have ht : Indexes (m.remove_recursive_inner row.1 row.2 0 height) :=
      remove_recursive_keeps (fun _ id hp => hp.remove_inner id _ _ _) hm row.1
    obtain ⟨hclosed, hgone, honly⟩ := ih ht (hacyclic.shrinks hfirst.toShrinks)
    refine ⟨hfirst.toClosed.trans hm ht hclosed, fun row' hrow' => ?_, fun id hid hnone => ?_⟩
    · rcases List.mem_cons.mp hrow' with rfl | hrow'
      · exact (hclosed.body _).elim id fun hb => hb.trans (hfirst.gone _ (List.mem_singleton_self _))
      · exact hgone row' hrow'
    · by_cases hb : (m.remove_recursive_inner row.1 row.2 0 height).body id = none
      · obtain ⟨root, hroot, hpath⟩ := hfirst.only hid hb
        rw [List.mem_singleton.mp hroot] at hpath
        exact ⟨row, List.mem_cons_self, hpath⟩
      · obtain ⟨row', hrow', hpath⟩ := honly id hb hnone
        exact ⟨row', List.mem_cons_of_mem _ hrow', hpath.lift (fun id => id) fun _ _ => hfirst.child⟩

def retired (m : Mempool) (block : Block) : Mempool :=
  { m with
    block_since_rolling_fee_bump := true
    deltas := eraseAll m.deltas (block.transactions.map Platform.txid) }

theorem retired_same (m : Mempool) (block : Block) : SameTxs m (m.retired block) := ⟨fun _ => rfl, rfl, rfl, rfl, rfl⟩

theorem on_block_connected_eq (m : Mempool) (block : Block) (conf_height : ℕ) :
    m.on_block_connected block conf_height =
    (m.dead block).foldl (fun m row => m.remove_recursive_inner row.1 row.2 0 conf_height) (m.retired block) := rfl

theorem on_block_connected_contains (hm : Indexes m) (hacyclic : Acyclic m) (block : Block) (conf_height : ℕ)
    (id : Txid) :
    (m.on_block_connected block conf_height).contains id ↔
      m.contains id ∧ ¬ ∃ row ∈ m.dead block, ReflTransGen m.Child row.1 id := by
  have hretired : Indexes (m.retired block) := hm.same (retired_same m block)
  obtain ⟨hclosed, hgone, honly⟩ :=
    remove_rows_closed (m.dead block) conf_height hretired (show Acyclic (m.retired block) from hacyclic)
  rw [← on_block_connected_eq] at hclosed hgone honly
  rw [contains_eq, contains_eq, Option.isSome_iff_ne_none, Option.isSome_iff_ne_none]
  constructor
  · intro hstays
    refine ⟨fun hnone => hstays ((hclosed.body id).elim (fun hb => hb) fun hb => hb.trans hnone), ?_⟩
    rintro ⟨row, hrow, hpath⟩
    obtain ⟨entry, hentry⟩ := hm.dead_pooled hrow
    rcases reflTransGen_iff_eq_or_transGen.mp hpath with rfl | hpath
    · exact hstays (hgone row hrow)
    · refine hstays (hclosed.descends hretired hpath ?_ (hgone row hrow))
      rw [Ne, body_eq_none]
      exact hentry ▸ Option.some_ne_none entry
  · rintro ⟨hpooled, hno⟩ hnone
    exact hno (honly id hpooled hnone)

theorem Indexes.dead_cases (hm : Indexes m) (h : row ∈ m.dead block) :
    row.1 ∈ m.confirmed block ∨ Conflicted m block row.1 := by
  obtain ⟨entry, hentry⟩ := hm.dead_pooled h
  have hpooled : m.contains row.1 := by
    unfold contains
    rw [hentry]
    rfl
  by_cases hid : row.1 ∈ block_txids block
  · exact .inl (mem_confirmed.mpr ⟨hid, hpooled⟩)
  · obtain ⟨tx, htx, ⟨rfl, -⟩ | ⟨hcoinbase, -, input, hinput, hspends⟩⟩ := mem_dead.mp h
    · exact absurd (List.mem_map_of_mem htx) hid
    · obtain ⟨entry', hentry', hop⟩ := (hm.spends _ _).mp hspends
      exact .inr ⟨hid, entry', hentry', tx, htx, hcoinbase, input, hinput, hop⟩

theorem leaves_exactly_iff (hm : Indexes m) (hacyclic : Acyclic m) (block : Block) (conf_height : ℕ) :
    LeavesExactly m block conf_height ↔ ∀ a ∈ m.confirmed block, ∀ d, m.Descends a d →
      d ∈ block_txids block ∨ ∃ c, Conflicted m block c ∧ ReflTransGen m.Child c d := by
  unfold LeavesExactly
  constructor
  · intro h a ha d hd
    by_contra hstays
    push Not at hstays
    have hpooled : m.contains d := by
      rw [contains_eq, Option.isSome_iff_ne_none]
      exact hm.descends_pooled hd
    have hkept := (h d).mpr ⟨hpooled, hstays.1, fun ⟨c, hc, hpath⟩ => hstays.2 c hc hpath⟩
    obtain ⟨-, hno⟩ := (on_block_connected_contains hm hacyclic block conf_height d).mp hkept
    exact hno ⟨(a, .Confirmed), confirmed_dead ha, hd.to_reflTransGen⟩
  · intro h id
    rw [on_block_connected_contains hm hacyclic]
    refine and_congr_right fun hpooled => ⟨fun hno => ⟨fun hid => ?_, ?_⟩, ?_⟩
    · exact hno ⟨(id, .Confirmed), confirmed_dead (mem_confirmed.mpr ⟨hid, hpooled⟩), .refl⟩
    · rintro ⟨c, hc, hpath⟩
      exact hno ⟨(c, .BlockConflict), hm.conflicted_dead hc, hpath⟩
    · rintro ⟨hid, hno⟩ ⟨row, hrow, hpath⟩
      rcases hm.dead_cases hrow with hconfirmed | hconflicted
      · rcases reflTransGen_iff_eq_or_transGen.mp hpath with rfl | hpath
        · exact hid (mem_confirmed.mp hconfirmed).1
        · exact (h row.1 hconfirmed id hpath).elim hid hno
      · exact hno ⟨row.1, hconflicted, hpath⟩

/-- A block leaves the pool and the estimator as it is to exactly where it spends nothing that the pool spends; the
right entries leave exactly where the descendants of what it confirms leave with it anyway. -/
theorem on_block_connected_exact [PoolPolicy] (hm : Reachable m) (hacyclic : Acyclic m) (hnames : NamesSpends m block)
    (conf_height : ℕ) : (ConfirmsExactly m block conf_height ↔ Apart m block) ∧
      (LeavesExactly m block conf_height ↔ ∀ a ∈ m.confirmed block, ∀ d, m.Descends a d →
        d ∈ block_txids block ∨ ∃ c, Conflicted m block c ∧ ReflTransGen m.Child c d) := by
  have hindexes : Indexes m := .run hm
  refine ⟨⟨fun h => hindexes.apart_of_samples h.samples, fun h => ?_⟩, leaves_exactly_iff hindexes hacyclic block _⟩
  exact confirms_of_dead_nil hindexes (dead_nil hindexes (.run hm) hnames h) conf_height

end

section

attribute [local instance] Platform.sample PoolPolicy.sample

def sample_parent_block : Block := ⟨sample_header 1 0 0, [sample_tx 1 [(1000, 0)] [990000]]⟩

theorem on_block_connected_exact_family :
    (ConfirmsExactly sample_family sample_parent_block 1 ↔ Apart sample_family sample_parent_block) ∧
      (LeavesExactly sample_family sample_parent_block 1 ↔
        ∀ a ∈ sample_family.confirmed sample_parent_block, ∀ d, sample_family.Descends a d →
          d ∈ block_txids sample_parent_block ∨
            ∃ c, Conflicted sample_family sample_parent_block c ∧ ReflTransGen sample_family.Child c d) := by
  refine on_block_connected_exact sample_family_reachable sample_family_acyclic (fun tx htx entry hentry => ?_) 1
  rw [List.mem_singleton.mp htx] at hentry ⊢
  have hspends : (sample_family.map.lookup 1).map (fun entry => entry.tx.inputs.map TxIn.previous_output) =
      some [⟨1000, 0⟩] := by decide +kernel
  rw [show sample_family.map.lookup 1 = some entry from hentry] at hspends
  exact Option.some.inj hspends

theorem confirmed_parent_takes_child : ¬ ∀ m block conf_height, Reachable m →
    ConfirmsExactly m block conf_height := by
  intro h
  have hleaves := (h sample_family sample_parent_block 1 sample_family_reachable).leaves 2
  have hgone : (sample_family.on_block_connected sample_parent_block 1).contains 2 = false := by decide +kernel
  rw [hgone] at hleaves
  refine absurd (hleaves.mpr ⟨by decide +kernel, by decide, ?_⟩) Bool.false_ne_true
  rintro ⟨c, ⟨hunlisted, entry, hentry, tx, htx, -, input, hinput, hop⟩, -⟩
  rw [List.mem_singleton.mp htx] at hinput
  rw [List.mem_singleton.mp hinput] at hop
  have hspends := ((Indexes.run sample_family_reachable).spends _ c).mpr ⟨entry, hentry, hop⟩
  have hparent : sample_family.spends.lookup ⟨1000, 0⟩ = some 1 := by decide +kernel
  rw [show sample_family.spends.lookup ⟨1000, 0⟩ = some c from hspends] at hparent
  cases hparent
  exact hunlisted (by decide)

end

end Mempool

end AvilaNode
