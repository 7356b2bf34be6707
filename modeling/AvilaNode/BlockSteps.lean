import AvilaNode.ConnectBlock

/-! What a block's transactions do to any view of the coins: the inputs it takes from outside, and the
outputs it leaves. -/

namespace AvilaNode

open Layers Ledger UtxoSet

section

variable [Platform]

def after_txs (height : ℕ) : List Transaction → View OutPoint Coin → View OutPoint Coin
  | [], v => v
  | tx :: txs, v => after_txs height txs ((tx_step tx height).after v)

def external_inputs (height : ℕ) : List OutPoint → List Transaction → List OutPoint
  | _, [] => []
  | made, tx :: txs => (tx_step tx height).takes.filter (· ∉ made)
      ++ external_inputs height (made ++ (tx_step tx height).makes.map Prod.fst) txs

theorem after_steps (height : ℕ) (txs : List Transaction) (undos : List TxUndo) (hl : undos.length = txs.length)
    (v : View OutPoint Coin) : afterAll v (tx_steps height txs undos) = after_txs height txs v := by
  induction txs generalizing undos v with
  | nil => rfl
  | cons tx txs ih =>
    cases undos with
    | nil => cases hl
    | cons undo undos => exact ih undos (by simpa using hl) _

variable {height : ℕ} {txs : List Transaction} {op : OutPoint} {block : Block}

variable {v : View OutPoint Coin} {made : List OutPoint} {tx : Transaction}

theorem touchedBy_cons : TouchedBy height (tx :: txs) op ↔
      (op ∈ (tx_step tx height).takes ∨ op ∈ (tx_step tx height).makes.map Prod.fst) ∨ TouchedBy height txs op := by
  simp only [TouchedBy, List.mem_cons, exists_eq_or_imp]

theorem after_txs_congr (height : ℕ) (txs : List Transaction) {v w : View OutPoint Coin} (h : v op = w op) :
    after_txs height txs v op = after_txs height txs w op := by
  induction txs generalizing v w with
  | nil => exact h
  | cons tx txs ih => exact ih (Step.after_congr h)

theorem after_txs_untouched (h : ¬ TouchedBy height txs op) : after_txs height txs v op =
    v op := by
  induction txs generalizing v with
  | nil => rfl
  | cons tx txs ih =>
    rw [touchedBy_cons, not_or, not_or] at h
    rw [after_txs, ih h.2, Step.after_of_not_made h.1.2, Step.taken_of_notMem h.1.1]

theorem after_txs_touched (v w : View OutPoint Coin) (h : TouchedBy height txs op) : after_txs height txs v op =
    after_txs height txs w op := by
  induction txs generalizing v w with
  | nil =>
    obtain ⟨tx, htx, -⟩ := h
    cases htx
  | cons tx txs ih =>
    by_cases ht : TouchedBy height txs op
    · exact ih _ _ ht
    · exact after_txs_congr height txs (Step.after_of_touched v w ((touchedBy_cons.mp h).resolve_right ht))

theorem after_txs_some {c : Coin} (h : after_txs height txs v op = some c) :
    v op = some c ∨ ∃ tx ∈ txs, op ∈ (tx_step tx height).makes.map Prod.fst := by
  induction txs generalizing v with
  | nil => exact .inl h
  | cons tx txs ih =>
    rcases ih h with h | ⟨x, hx, hm⟩
    · by_cases hm : op ∈ (tx_step tx height).makes.map Prod.fst
      · exact .inr ⟨tx, List.mem_cons_self, hm⟩
      rw [Step.after_of_not_made hm] at h
      have ht : op ∉ (tx_step tx height).takes := fun ht => by
        rw [Step.taken_of_mem ht] at h
        cases h
      rw [Step.taken_of_notMem ht] at h
      exact .inl h
    · exact .inr ⟨x, List.mem_cons_of_mem _ hx, hm⟩

theorem after_txs_made {c : Coin} (ht : ∀ tx ∈ txs, op ∉ (tx_step tx height).takes)
    (hu : ∀ tx ∈ txs, ∀ d, (op, d) ∈ (tx_step tx height).makes → d = c)
    (hm : ∃ tx ∈ txs, (op, c) ∈ (tx_step tx height).makes) : after_txs height txs v op = some c := by
  induction txs generalizing v with
  | nil =>
    obtain ⟨tx, htx, -⟩ := hm
    cases htx
  | cons tx txs ih =>
    have ht' : ∀ a ∈ txs, op ∉ (tx_step a height).takes := fun a ha => ht a (List.mem_cons_of_mem _ ha)
    have hu' : ∀ a ∈ txs, ∀ d, (op, d) ∈ (tx_step a height).makes → d = c := fun a ha =>
      hu a (List.mem_cons_of_mem _ ha)
    by_cases hrest : ∃ a ∈ txs, (op, c) ∈ (tx_step a height).makes
    · exact ih ht' hu' hrest
    have hhead : (op, c) ∈ (tx_step tx height).makes := by
      obtain ⟨a, ha, hc⟩ := hm
      rcases List.mem_cons.mp ha with rfl | ha
      · exact hc
      · exact absurd ⟨a, ha, hc⟩ hrest
    have hlast : ¬ TouchedBy height txs op := by
      rintro ⟨a, ha, hop | hop⟩
      · exact ht' a ha hop
      · obtain ⟨⟨op', d⟩, he, rfl⟩ := List.mem_map.mp hop
        exact hrest ⟨a, ha, hu' a ha d he ▸ he⟩
    rw [after_txs, after_txs_untouched hlast]
    apply writeAll_of_mem (mem_puts.mpr ⟨c, hhead, rfl⟩)
    intro x hx
    obtain ⟨d, hd, rfl⟩ := mem_puts.mp hx
    rw [hu tx List.mem_cons_self d hd]

omit [Platform] in
theorem created_eq (txid : Txid) (coinbase : Bool) (height vout : ℕ) (outs : List TxOut) :
    created txid coinbase height vout outs = (outs.zipIdx vout).filterMap fun (out, i) =>
      if is_unspendable out.script_pubkey then none else some (⟨txid, i⟩, ⟨out, height, coinbase⟩) := by
  induction outs generalizing vout with
  | nil => rfl
  | cons out outs ih =>
    rw [created, List.zipIdx_cons, List.filterMap_cons, ih]
    by_cases hu : is_unspendable out.script_pubkey
    · simp [hu]
    · simp [hu]

omit [Platform] in
theorem created_vout_lt {txid : Txid} {coinbase : Bool} {vout : ℕ} {outs : List TxOut} {e : OutPoint × Coin}
    (h : e ∈ created txid coinbase height vout outs) : e.1.vout < vout + outs.length := by
  induction outs generalizing vout with
  | nil => cases h
  | cons out outs ih =>
    rw [List.length_cons]
    rw [created] at h
    split at h
    · have hv := ih h
      omega
    rcases List.mem_cons.mp h with rfl | h
    · dsimp only
      omega
    · have hv := ih h
      omega

theorem mem_bip30_outpoints : op ∈ bip30_outpoints block ↔
    ∃ tx ∈ block.transactions, op.txid = tx.txid ∧ op.vout < tx.outputs.length := by
  simp only [bip30_outpoints, List.mem_flatMap, List.mem_map, List.mem_range]
  constructor
  · rintro ⟨tx, htx, vout, hv, rfl⟩
    exact ⟨tx, htx, rfl, hv⟩
  · rintro ⟨tx, htx, ht, hv⟩
    exact ⟨tx, htx, op.vout, hv, by rw [← ht]⟩

theorem made_outpoint (htx : tx ∈ block.transactions) (h : op ∈ (tx_step tx height).makes.map Prod.fst) :
    op ∈ bip30_outpoints block := by
  obtain ⟨e, he, rfl⟩ := List.mem_map.mp h
  have hv := created_vout_lt he
  exact mem_bip30_outpoints.mpr ⟨tx, htx, (created_vout he).1, by omega⟩

theorem external_touched (h : op ∈ external_inputs height made txs) :
    TouchedBy height txs op := by
  induction txs generalizing made with
  | nil => cases h
  | cons tx txs ih =>
    rcases List.mem_append.mp h with h | h
    · exact ⟨tx, List.mem_cons_self, .inl (List.mem_filter.mp h).1⟩
    · exact touchedBy_cons.mpr (.inr (ih h))

theorem external_not_made (h : op ∈ external_inputs height made txs) : op ∉ made := by
  induction txs generalizing made with
  | nil => cases h
  | cons tx txs ih =>
    rcases List.mem_append.mp h with h | h
    · simpa using (List.mem_filter.mp h).2
    · exact fun hm => ih h (List.mem_append_left _ hm)

theorem external_present {undos : List TxUndo} (hl : undos.length = txs.length)
    (h : RecordsAll v (tx_steps height txs undos)) (hop : op ∈ external_inputs height made txs) :
    ∃ c, v op = some c := by
  induction txs generalizing v undos made with
  | nil => cases hop
  | cons tx txs ih =>
    cases undos with
    | nil => cases hl
    | cons undo undos =>
      obtain ⟨hr, hrest⟩ := h
      rcases List.mem_append.mp hop with hop | hop
      · obtain ⟨c, hc⟩ := hr.of_takes op (List.mem_filter.mp hop).1
        exact ⟨c, hr.taken_of op c hc⟩
      obtain ⟨c, hc⟩ := ih (by simpa using hl) hrest hop
      have hm : op ∉ (tx_step tx height).makes.map Prod.fst := fun hm =>
        external_not_made hop (List.mem_append_right made hm)
      rw [Step.after_of_not_made hm] at hc
      have ht : op ∉ (tx_step tx height).takes := fun ht => by
        rw [Step.taken_of_mem ht] at hc
        cases hc
      rw [Step.taken_of_notMem ht] at hc
      exact ⟨c, hc⟩

def context_height (ctx : ConnectContext) : ℕ :=
  match block_position ctx with
  | .ok (height, _) => height
  | .error _ => 0

structure Stepped (block : Block) (s t : UtxoSet) (ctx : ConnectContext) (undo : BlockUndo) : Prop where
  ok : Ok t
  view : t.get = after_txs (context_height ctx) block.transactions s.get
  length : undo.txs.length = block.transactions.length
  records : RecordsAll s.get (tx_steps (context_height ctx) block.transactions undo.txs)

theorem connect_inner_steps {s t : UtxoSet} {ctx : ConnectContext} {undo : BlockUndo}
    {pending : Option (List QueuedCheck)} {record : BlockReceipt} (hs : Ok s)
    (hin : connect_block_inner block s ctx = (.ok (undo, pending, record), t)) : Stepped block s t ctx undo := by
  obtain ⟨env, st, ⟨mtp, hpos, -⟩, hpre, rfl, -⟩ := connect_inner_ok hs hin
  have hh : context_height ctx = env.height := by simp [context_height, hpos]
  refine ⟨hpre.reads.ok, ?_, hpre.length, hh ▸ hpre.records⟩
  rw [hh, hpre.view, after_steps _ _ _ hpre.length]

theorem connect_block_steps {s t : UtxoSet} {ctx : ConnectContext} {undo : BlockUndo} (hs : Ok s)
    (hc : connect_block block s ctx = (.ok undo, t)) : Stepped block s t ctx undo := by
  obtain ⟨pending, rec, hin⟩ := connect_block_ok hc
  exact connect_inner_steps hs hin

end

end AvilaNode
