import AvilaNode.Connect
import AvilaNode.Ledger

/-! Connecting and disconnecting as steps on the visible coins. -/

namespace AvilaNode

open Layers Ledger

def created (txid : Txid) (coinbase : Bool) (height : ℕ) : ℕ → List TxOut → List (OutPoint × Coin)
  | _, [] => []
  | vout, out :: outs =>
    if is_unspendable out.script_pubkey then created txid coinbase height (vout + 1) outs
    else (⟨txid, vout⟩, ⟨out, height, coinbase⟩) :: created txid coinbase height (vout + 1) outs

variable {e : OutPoint × Coin} {v : View OutPoint Coin}

variable {p : Option (Delta OutPoint Coin)} (es : List (OutPoint × Coin)) {spent : List Coin}
  {w : View OutPoint Coin} {c : Coin} {inputs : List TxIn} {outs : List TxOut} {coinbase : Bool}

theorem created_vout {txid : Txid} {height vout : ℕ} (h : e ∈ created txid coinbase height vout outs) :
    e.1.txid = txid ∧ vout ≤ e.1.vout := by
  induction outs generalizing vout with
  | nil => cases h
  | cons out outs ih =>
    rw [created] at h
    split at h
    · obtain ⟨ht, hv⟩ := ih h
      exact ⟨ht, by omega⟩
    · rcases List.mem_cons.mp h with rfl | h
      · exact ⟨rfl, le_refl vout⟩
      · obtain ⟨ht, hv⟩ := ih h
        exact ⟨ht, by omega⟩

theorem created_value {txid : Txid} {height vout : ℕ} (h : e ∈ created txid coinbase height vout outs) :
    e.2.out ∈ outs := by
  induction outs generalizing vout with
  | nil => cases h
  | cons out outs ih =>
    rw [created] at h
    split at h
    · exact List.mem_cons_of_mem _ (ih h)
    · rcases List.mem_cons.mp h with rfl | h
      · exact List.mem_cons_self
      · exact List.mem_cons_of_mem _ (ih h)

def covered (v : View OutPoint Coin) (es : List (OutPoint × Coin)) : List (OutPoint × Coin) :=
  es.filterMap fun e => (v e.1).map fun c => (e.1, c)

theorem mem_covered {es : List (OutPoint × Coin)} {op : OutPoint} :
    (op, c) ∈ covered v es ↔ op ∈ es.map Prod.fst ∧ v op = some c := by
  simp only [covered, List.mem_filterMap, Option.map_eq_some_iff, Prod.mk.injEq, List.mem_map]
  constructor
  · rintro ⟨e, he, d, hd, rfl, rfl⟩
    exact ⟨⟨e, he, rfl⟩, hd⟩
  · rintro ⟨⟨e, he, rfl⟩, hv⟩
    exact ⟨e, he, c, hv, rfl, rfl⟩

theorem covered_cons_none (h : v e.1 = none) : covered v (e :: es) = covered v es := by
  simp [covered, h]

theorem covered_cons_some (h : v e.1 = some c) : covered v (e :: es) =
    (e.1, c) :: covered v es := by
  simp [covered, h]

theorem covered_congr {es : List (OutPoint × Coin)} (h : ∀ e ∈ es, v e.1 = w e.1) :
    covered v es = covered w es := by
  unfold covered
  apply List.filterMap_congr
  intro e he
  rw [h e he]

def uncovered (v : View OutPoint Coin) (es : List (OutPoint × Coin)) : List (OutPoint × Coin) :=
  es.takeWhile fun e => (v e.1).isNone

theorem uncovered_cons_none (h : v e.1 = none) : uncovered v (e :: es) =
    e :: uncovered v es := by
  simp [uncovered, h]

theorem uncovered_cons_some (h : v e.1 = some c) : uncovered v (e :: es) =
    [] := by
  simp [uncovered, h]

theorem uncovered_congr {es : List (OutPoint × Coin)} (h : ∀ e ∈ es, v e.1 = w e.1) :
    uncovered v es = uncovered w es := by
  unfold uncovered
  induction es with
  | nil => rfl
  | cons e es ih =>
    rw [List.takeWhile_cons, List.takeWhile_cons, h e List.mem_cons_self,
      ih fun e he => h e (List.mem_cons_of_mem _ he)]

theorem mapM_zip {f : TxIn → Option Coin} (h : inputs.mapM f = some spent) :
    spent.length = inputs.length ∧ ∀ q ∈ inputs.zip spent, f q.1 = some q.2 := by
  induction inputs generalizing spent with
  | nil =>
    simp only [List.mapM_nil, Option.pure_def, Option.some.injEq] at h
    simp [← h]
  | cons i inputs ih =>
    rw [List.mapM_cons] at h
    cases hf : f i with
    | none => simp [hf] at h
    | some c =>
      cases hr : inputs.mapM f with
      | none => simp [hf, hr] at h
      | some coins =>
        simp only [hf, hr, Option.bind_eq_bind, Option.bind_some, Option.pure_def, Option.some.injEq] at h
        obtain ⟨hl, hz⟩ := ih hr
        rw [← h]
        refine ⟨by simp [hl], fun q hq => ?_⟩
        rcases List.mem_cons.mp hq with rfl | hq
        · exact hf
        · exact hz q hq

theorem zip_prevouts (h : spent.length = inputs.length) :
    ((inputs.zip spent).map fun q => q.1.previous_output) = inputs.map TxIn.previous_output := by
  have : (inputs.zip spent).map Prod.fst = inputs := List.map_fst_zip (by omega)
  conv_rhs => rw [← this]
  rw [List.map_map]
  rfl

namespace UtxoSet

variable {s : UtxoSet}

theorem PrefetchOk.of_backend {t : UtxoSet} (h : s.PrefetchOk p) (hb : t.backend = s.backend) : t.PrefetchOk p := by
  intro be rows hbe
  rw [hb] at hbe
  exact h be rows hbe

variable [Platform]

theorem spend_backend (s : UtxoSet) (op : OutPoint) : (s.spend op).2.backend = s.backend := by
  unfold UtxoSet.spend
  dsimp only
  split
  · split
    · split <;> rfl
    · rfl
  · split <;> rfl

structure Reads (s : UtxoSet) (p : Option (Delta OutPoint Coin)) : Prop where
  ok : Ok s
  prefetch : s.PrefetchOk p

theorem Reads.get (h : Reads s p) (op : OutPoint) :
    s.get_with_prefetched op p = s.get op := by
  rw [get_with_prefetched_of_layers h.ok.layers h.prefetch, get_of_layers h.ok.layers]

theorem Reads.note_read (h : Reads s p) (op : OutPoint) :
    Reads (s.note_read op p) p ∧ (s.note_read op p).get = s.get := by
  obtain ⟨hok, hget, hb⟩ := h.ok.note_read h.prefetch op
  exact ⟨⟨hok, h.prefetch.of_backend hb⟩, hget⟩

theorem Reads.note_get (h : Reads s p) (op : OutPoint) :
    Reads (s.note_read op none) p ∧ (s.note_read op none).get = s.get := by
  obtain ⟨hok, hget, hb⟩ := h.ok.note_read (.none s) op
  exact ⟨⟨hok, h.prefetch.of_backend hb⟩, hget⟩

theorem Reads.put (h : Reads s p) (op : OutPoint) (e : Option Coin) :
    Reads (s.put op e) p ∧ (s.put op e).get = Function.update s.get op e :=
  ⟨⟨h.ok.put op e, h.prefetch.of_backend rfl⟩, h.ok.get_put op e⟩

theorem Reads.spend (h : Reads s p) (op : OutPoint) :
    Reads (s.spend op).2 p ∧ (s.spend op).2.get = Function.update s.get op none := by
  obtain ⟨hok, hget⟩ := h.ok.spend op
  exact ⟨⟨hok, h.prefetch.of_backend (spend_backend s op)⟩, hget⟩

end UtxoSet

open UtxoSet

section

variable [Platform]

variable {s : UtxoSet} {env : ApplyEnv} {tx : Transaction} {fees fees' : ℤ} {height : ℕ}

theorem resolve_inputs_eq (inputs : List TxIn) (h : Reads s p) :
    (resolve_inputs p inputs s).1 = inputs.mapM (fun i => s.get i.previous_output) ∧
      Reads (resolve_inputs p inputs s).2 p ∧ (resolve_inputs p inputs s).2.get = s.get := by
  induction inputs generalizing s with
  | nil => exact ⟨rfl, h, rfl⟩
  | cons i inputs ih =>
    obtain ⟨hr, hg⟩ := h.note_read i.previous_output
    obtain ⟨h1, h2, h3⟩ := ih hr
    rw [resolve_inputs, List.mapM_cons, h.get]
    cases hf : s.get i.previous_output with
    | none => exact ⟨rfl, hr, hg⟩
    | some coin =>
      rw [hg] at h1 h3
      cases hres : resolve_inputs p inputs (s.note_read i.previous_output p) with
      | mk found t =>
        rw [hres] at h1 h2 h3
        cases found with
        | none => exact ⟨by simp [← h1], h2, h3⟩
        | some coins => exact ⟨by simp [← h1], h2, h3⟩

theorem spend_inputs_view (ps : List (TxIn × Coin)) (h : Reads s p) :
    Reads (spend_inputs ps s) p ∧
      (spend_inputs ps s).get = writeAll s.get (drops (ps.map fun q => q.1.previous_output)) := by
  induction ps generalizing s with
  | nil => exact ⟨h, rfl⟩
  | cons q ps ih =>
    obtain ⟨hr, hg⟩ := h.spend q.1.previous_output
    obtain ⟨h1, h2⟩ := ih hr
    refine ⟨h1, ?_⟩
    rw [hg] at h2
    exact h2

theorem put_coins_view (h : Ok s) :
    Ok (put_coins es s) ∧ (put_coins es s).get = writeAll s.get (puts es) := by
  induction es generalizing s with
  | nil => exact ⟨h, rfl⟩
  | cons e es ih =>
    obtain ⟨h1, h2⟩ := ih (h.put e.1 (some e.2))
    refine ⟨h1, ?_⟩
    rw [h.get_put] at h2
    exact h2

theorem remove_outputs_view (txid : Txid) (coinbase : Bool) (height vout : ℕ) (outs : List TxOut) (h : Ok s) :
    Ok (remove_outputs txid vout outs s) ∧
      (remove_outputs txid vout outs s).get =
        writeAll s.get (drops ((created txid coinbase height vout outs).map Prod.fst)) := by
  induction outs generalizing s vout with
  | nil => exact ⟨h, rfl⟩
  | cons out outs ih =>
    rw [remove_outputs, created]
    split
    · exact ih (vout + 1) h
    obtain ⟨hr, hg⟩ := h.remove_entry ⟨txid, vout⟩
    obtain ⟨h1, h2⟩ := ih (vout + 1) hr
    refine ⟨h1, ?_⟩
    rw [hg] at h2
    exact h2

/-- What adding outputs leaves: all of them and the coins they covered, or, past the guard, those before
the first that lands on a coin. -/
theorem add_outputs_view (txid : Txid) (coinbase : Bool) (height : ℕ) (outs : List TxOut) (vout : ℕ) (undo : TxUndo)
    (h : Reads s p) :
    Reads (add_outputs txid coinbase height s undo vout outs).2.1 p ∧
      (if coinbase = true ∨ covered s.get (created txid coinbase height vout outs) = [] then
        (add_outputs txid coinbase height s undo vout outs).1 = .ok () ∧
          (add_outputs txid coinbase height s undo vout outs).2.1.get =
            writeAll s.get (puts (created txid coinbase height vout outs)) ∧
          (add_outputs txid coinbase height s undo vout outs).2.2 =
            { undo with
              overwritten := undo.overwritten ++ covered s.get (created txid coinbase height vout outs) }
      else
        (add_outputs txid coinbase height s undo vout outs).1 = .error (.Internal OVERWRITE_MESSAGE) ∧
          (add_outputs txid coinbase height s undo vout outs).2.1.get =
            writeAll s.get (puts (uncovered s.get (created txid coinbase height vout outs)))) := by
  induction outs generalizing vout undo s with
  | nil => simp [add_outputs, created, covered, h, puts, writeAll]
  | cons out outs ih =>
    rw [add_outputs, created]
    split
    · exact ih (vout + 1) undo h
    obtain ⟨hr, hg⟩ := h.note_get ⟨txid, vout⟩
    obtain ⟨hp, hpg⟩ := hr.put ⟨txid, vout⟩ (some ⟨out, height, coinbase⟩)
    rw [hg] at hpg
    have hrest : ∀ e ∈ created txid coinbase height (vout + 1) outs,
        Function.update s.get ⟨txid, vout⟩ (some ⟨out, height, coinbase⟩) e.1 = s.get e.1 := by
      intro e he
      apply Function.update_of_ne
      intro heq
      have := (created_vout he).2
      rw [heq] at this
      dsimp only at this
      omega
    have hcov := covered_congr hrest
    have hunc := uncovered_congr hrest
    dsimp only
    cases hprev : s.get ⟨txid, vout⟩ with
    | none =>
      have ih' := ih (vout + 1) undo hp
      rw [hpg, hcov, hunc] at ih'
      rw [covered_cons_none _ hprev, uncovered_cons_none _ hprev]
      exact ih'
    | some previous =>
      cases coinbase with
      | true =>
        have ih' := ih (vout + 1) { undo with overwritten := undo.overwritten ++ [(⟨txid, vout⟩, previous)] } hp
        rw [hpg, hcov, hunc] at ih'
        rw [covered_cons_some _ hprev]
        simp only [true_or, if_true, List.append_assoc, List.singleton_append] at ih' ⊢
        exact ih'
      | false =>
        obtain ⟨hq, hqg⟩ := hp.put ⟨txid, vout⟩ (some previous)
        refine ⟨hq, ?_⟩
        have hback : Function.update s.get ⟨txid, vout⟩ (some previous) = s.get := by
          rw [← hprev, Function.update_eq_self]
        rw [hpg, Function.update_idem, hback] at hqg
        rw [covered_cons_some _ hprev, uncovered_cons_some _ hprev]
        simp [puts, writeAll, hqg]

def tx_step (tx : Transaction) (height : ℕ) : Step OutPoint Coin where
  takes := if tx.is_coinbase then [] else tx.inputs.map TxIn.previous_output
  makes := created tx.txid tx.is_coinbase height 0 tx.outputs

def tx_undo (tx : Transaction) (undo : TxUndo) : Undo OutPoint Coin where
  taken := (tx.inputs.zip undo.spent).map fun q => (q.1.previous_output, q.2)
  covered := undo.overwritten

def partial_view (tx : Transaction) (height : ℕ) (v : View OutPoint Coin) : View OutPoint Coin :=
  writeAll ((tx_step tx height).taken v) (puts (uncovered ((tx_step tx height).taken v) (tx_step tx height).makes))

theorem unapply_tx_view (tx : Transaction) (undo : TxUndo) (height : ℕ) (h : Ok s) : Ok (unapply_tx tx undo s) ∧
      (unapply_tx tx undo s).get = (tx_step tx height).back (tx_undo tx undo) s.get := by
  obtain ⟨h1, g1⟩ := remove_outputs_view tx.txid tx.is_coinbase height 0 tx.outputs h
  obtain ⟨h2, g2⟩ := put_coins_view undo.overwritten h1
  obtain ⟨h3, g3⟩ := put_coins_view ((tx.inputs.zip undo.spent).map fun q => (q.1.previous_output, q.2)) h2
  refine ⟨h3, ?_⟩
  unfold Step.back Step.undoing
  rw [writeAll_append, writeAll_append]
  rw [g2, g1] at g3
  exact g3

def Paid (v : View OutPoint Coin) (height : ℕ) (tx : Transaction) (spent : List Coin) (fees fees' : ℤ) : Prop :=
  if tx.is_coinbase then spent = [] ∧ fees' = fees
  else tx.inputs.mapM (fun i => v i.previous_output) = some spent ∧
    ∃ fee, check_values tx height spent = .ok fee ∧ fees' = fees + fee ∧ money_range fees'

theorem check_tx_view {t : UtxoSet} {r : Except ConnectError (List Coin × ℤ)} (h : Reads s (some env.prefetched))
    (hc : check_tx env tx s fees = (r, t)) :
    Reads t (some env.prefetched) ∧ t.get = s.get ∧
      ∀ spent fees', r = .ok (spent, fees') → Paid s.get env.height tx spent fees fees' := by
  unfold check_tx at hc
  split at hc
  · rename_i hcb
    cases hc
    refine ⟨h, rfl, fun spent fees' hr => ?_⟩
    cases hr
    simp [Paid, hcb]
  · rename_i hcb
    obtain ⟨hres, hrr, hrg⟩ := resolve_inputs_eq tx.inputs h
    unfold check_spends check_tx_inputs_using at hc
    cases hri : resolve_inputs (some env.prefetched) tx.inputs s with
    | mk found u =>
      rw [hri] at hc hres hrr hrg
      cases found with
      | none =>
        cases hc
        exact ⟨hrr, hrg, fun _ _ hr => by cases hr⟩
      | some coins =>
        dsimp only at hc
        cases hv : check_values tx env.height coins with
        | error e =>
          rw [hv] at hc
          cases hc
          exact ⟨hrr, hrg, fun _ _ hr => by cases hr⟩
        | ok fee =>
          rw [hv] at hc
          dsimp only at hc
          split at hc
          · cases hc
            exact ⟨hrr, hrg, fun _ _ hr => by cases hr⟩
          rename_i total htot
          obtain ⟨hadd, hrange⟩ := Option.filter_eq_some_iff.mp htot
          obtain ⟨-, hsum⟩ := checked_add_eq_some.mp hadd
          split at hc
          · cases hc
            exact ⟨hrr, hrg, fun _ _ hr => by cases hr⟩
          · cases hc
            refine ⟨hrr, hrg, fun spent fees' hr => ?_⟩
            cases hr
            rw [Paid, if_neg hcb]
            exact ⟨hres.symm, fee, hv, hsum.symm, by simpa using hrange⟩

theorem Paid.takes (h : Paid v height tx spent fees fees') :
    ((tx.inputs.zip spent).map fun q => q.1.previous_output) = (tx_step tx height).takes ∧
      (∀ q ∈ tx.inputs.zip spent, v q.1.previous_output = some q.2) ∧
      (tx.inputs.zip spent).map Prod.snd = spent := by
  unfold Paid at h
  unfold tx_step
  split at h
  · rename_i hcb
    rw [if_pos hcb, h.1]
    simp
  · rename_i hcb
    obtain ⟨hm, -⟩ := h
    obtain ⟨hl, hz⟩ := mapM_zip hm
    rw [if_neg hcb]
    exact ⟨zip_prevouts hl, hz, List.map_snd_zip (by omega)⟩

theorem Paid.records (h : Paid v height tx spent fees fees') :
    (tx_step tx height).Records v
      (tx_undo tx ⟨spent, [] ++ covered ((tx_step tx height).taken v) (tx_step tx height).makes⟩) := by
  obtain ⟨htakes, hz, -⟩ := h.takes
  constructor
  · intro k c hk
    obtain ⟨q, hq, he⟩ := List.mem_map.mp hk
    cases he
    exact hz q hq
  · intro k hk
    rw [← htakes] at hk
    obtain ⟨q, hq, rfl⟩ := List.mem_map.mp hk
    exact ⟨q.2, List.mem_map.mpr ⟨q, hq, rfl⟩⟩
  · intro k c hk
    obtain ⟨q, hq, he⟩ := List.mem_map.mp hk
    cases he
    rw [← htakes]
    exact List.mem_map.mpr ⟨q, hq, rfl⟩
  · intro k c hk
    exact (mem_covered.mp hk).2
  · intro k c hk
    exact (mem_covered.mp hk).1
  · intro e he c hc
    exact mem_covered.mpr ⟨List.mem_map_of_mem he, hc⟩

def Collides (env : ApplyEnv) (tx : Transaction) (st : Applying) : Prop :=
  tx.is_coinbase = false ∧
    (∃ spent fees, (check_tx env tx st.utxo st.fees).1 = .ok (spent, fees) ∧
      min (st.sigops_cost + tx_sigop_cost tx spent env.flags) (2 ^ 64 - 1) ≤ MAX_BLOCK_SIGOPS_COST) ∧
    covered ((tx_step tx env.height).taken st.utxo.get) (tx_step tx env.height).makes ≠ []

variable {txs : List Transaction} {undos : List TxUndo} {st st' : Applying}

theorem apply_tx_view {index : ℕ} {r : Except ConnectError Unit} (h : Reads st.utxo (some env.prefetched))
    (ha : apply_tx env index tx st = (r, st')) :
    Reads st'.utxo (some env.prefetched) ∧
      match r with
      | .error _ => st'.applied = st.applied ∧
          ((¬ Collides env tx st ∧ st'.utxo.get = st.utxo.get) ∨
            (Collides env tx st ∧ st'.utxo.get = partial_view tx env.height st.utxo.get))
      | .ok () => ¬ Collides env tx st ∧ ∃ undo, st'.applied = st.applied ++ [⟨index, undo⟩] ∧
          (tx_step tx env.height).Records st.utxo.get (tx_undo tx undo) ∧
          st'.utxo.get = (tx_step tx env.height).after st.utxo.get ∧
          Paid st.utxo.get env.height tx undo.spent st.fees st'.fees := by
  unfold apply_tx at ha
  cases hc : check_tx env tx st.utxo st.fees with
  | mk res t =>
    obtain ⟨hr, hg, hpaid⟩ := check_tx_view h hc
    rw [hc] at ha
    cases res with
    | error e =>
      cases ha
      have hn : ¬ Collides env tx st := by
        rintro ⟨-, ⟨spent, fees, hok, -⟩, -⟩
        rw [hc] at hok
        cases hok
      exact ⟨hr, rfl, Or.inl ⟨hn, hg⟩⟩
    | ok p =>
      obtain ⟨spent, fees⟩ := p
      have hpay := hpaid spent fees rfl
      obtain ⟨htakes, hz, hsp⟩ := hpay.takes
      dsimp only at ha
      split at ha
      · rename_i hsig
        cases ha
        have hn : ¬ Collides env tx st := by
          rintro ⟨-, ⟨spent', fees', hok, hle⟩, -⟩
          rw [hc] at hok
          cases hok
          omega
        exact ⟨hr, rfl, Or.inl ⟨hn, hg⟩⟩
      · rename_i hsig
        obtain ⟨hs, hsg⟩ := spend_inputs_view (tx.inputs.zip spent) hr
        rw [htakes, hg] at hsg
        have hout := add_outputs_view tx.txid tx.is_coinbase env.height tx.outputs 0 ⟨spent, []⟩ hs
        rw [hsg] at hout
        rw [hsp] at ha
        unfold UtxoSet.add_tx_outputs at ha
        cases hadd : add_outputs tx.txid tx.is_coinbase env.height (spend_inputs (tx.inputs.zip spent) t)
            ⟨spent, []⟩ 0 tx.outputs with
        | mk res' rest =>
          obtain ⟨u, undo⟩ := rest
          rw [hadd] at ha hout
          obtain ⟨hu, hcase⟩ := hout
          change (if tx.is_coinbase = true ∨
            covered ((tx_step tx env.height).taken st.utxo.get) (tx_step tx env.height).makes = [] then _
              else _) at hcase
          split at hcase
          · rename_i hclean
            obtain ⟨rfl, hug, rfl⟩ := hcase
            cases ha
            have hn : ¬ Collides env tx st := by
              rintro ⟨hcb, -, hcov⟩
              rcases hclean with hclean | hclean
              · rw [hcb] at hclean
                cases hclean
              · exact hcov hclean
            exact ⟨hu, hn, _, rfl, hpay.records, hug, hpay⟩
          · rename_i hclean
            obtain ⟨rfl, hug⟩ := hcase
            cases ha
            refine ⟨hu, rfl, Or.inr ⟨⟨?_, ⟨spent, fees, by rw [hc], by omega⟩, ?_⟩, hug⟩⟩
            · simpa using fun hcb => hclean (Or.inl hcb)
            · exact fun hcov => hclean (Or.inr hcov)

def tx_steps (height : ℕ) (txs : List Transaction) (undos : List TxUndo) :
    List (Step OutPoint Coin × Undo OutPoint Coin) :=
  (txs.zip undos).map fun q => (tx_step q.1 height, tx_undo q.1 q.2)

theorem disconnect_txs_view (height : ℕ) (txs : List Transaction) (undos : List TxUndo) (h : Ok s) :
    Ok (disconnect_txs (txs.zip undos) s) ∧
      (disconnect_txs (txs.zip undos) s).get = writeAll s.get (undoingAll (tx_steps height txs undos)) := by
  unfold tx_steps
  induction txs.zip undos with
  | nil => exact ⟨h, rfl⟩
  | cons q qs ih =>
    obtain ⟨hok, hg⟩ := ih
    obtain ⟨h1, h2⟩ := unapply_tx_view q.1 q.2 height hok
    refine ⟨h1, ?_⟩
    rw [List.map_cons, undoingAll, writeAll_append, ← hg]
    exact h2

def PaidAll (height : ℕ) : View OutPoint Coin → ℤ → List Transaction → List TxUndo → ℤ → Prop
  | _, fees, [], [], fees' => fees' = fees
  | v, fees, tx :: txs, undo :: undos, fees' =>
    ∃ next, Paid v height tx undo.spent fees next ∧
      PaidAll height ((tx_step tx height).after v) next txs undos fees'
  | _, _, _, _, _ => False

structure Prefix (env : ApplyEnv) (s : UtxoSet) (txs : List Transaction) (undos : List TxUndo) (st : Applying) :
    Prop where
  reads : Reads st.utxo (some env.prefetched)
  length : undos.length = txs.length
  records : RecordsAll s.get (tx_steps env.height txs undos)
  view : st.utxo.get = afterAll s.get (tx_steps env.height txs undos)
  paid : PaidAll env.height s.get 0 txs undos st.fees
  applied : st.applied = undos.mapIdx fun i undo => ⟨i, undo⟩

theorem apply_txs_append (env : ApplyEnv) (a b : List Transaction) (index : ℕ) (st : Applying) :
    apply_txs env index (a ++ b) st = match apply_txs env index a st with
      | (.error e, st) => (.error e, st)
      | (.ok (), st) => apply_txs env (index + a.length) b st := by
  induction a generalizing index st with
  | nil => rfl
  | cons tx a ih =>
    rw [List.cons_append, apply_txs, apply_txs]
    cases h : apply_tx env index tx st with
    | mk r st' =>
      cases r with
      | error e => rfl
      | ok u =>
        dsimp only
        rw [ih, List.length_cons, show index + 1 + a.length = index + (a.length + 1) by omega]

theorem apply_txs_error {index : ℕ} {e : ConnectError} (h : apply_txs env index txs st = (.error e, st')) :
    ∃ pre tx post st₀, txs = pre ++ tx :: post ∧ apply_txs env index pre st = (.ok (), st₀) ∧
      apply_tx env (index + pre.length) tx st₀ = (.error e, st') := by
  induction txs generalizing index st with
  | nil => cases h
  | cons tx txs ih =>
    rw [apply_txs] at h
    cases ha : apply_tx env index tx st with
    | mk r next =>
      rw [ha] at h
      cases r with
      | error e' =>
        cases h
        exact ⟨[], tx, txs, st, rfl, rfl, ha⟩
      | ok u =>
        obtain ⟨pre, tx', post, st₀, rfl, hp, hf⟩ := ih h
        refine ⟨tx :: pre, tx', post, st₀, rfl, ?_, ?_⟩
        · rw [apply_txs, ha]
          exact hp
        · rw [List.length_cons, show index + (pre.length + 1) = index + 1 + pre.length by omega]
          exact hf

theorem paidAll_append {next : ℤ} {undo : TxUndo} (hl : undos.length = txs.length)
    (h : PaidAll height v fees txs undos next)
    (hp : Paid (afterAll v (tx_steps height txs undos)) height tx undo.spent next fees') :
    PaidAll height v fees (txs ++ [tx]) (undos ++ [undo]) fees' := by
  induction txs generalizing v fees undos with
  | nil =>
    cases undos with
    | nil =>
      obtain rfl : next = fees := h
      exact ⟨fees', hp, rfl⟩
    | cons u us => cases hl
  | cons a txs ih =>
    cases undos with
    | nil => cases hl
    | cons u us =>
      obtain ⟨mid, hpa, hrest⟩ := h
      exact ⟨mid, hpa, ih (by simpa using hl) hrest hp⟩

theorem tx_steps_append (hl : undos.length = txs.length) (tx : Transaction) (undo : TxUndo) :
    tx_steps height (txs ++ [tx]) (undos ++ [undo]) =
      tx_steps height txs undos ++ [(tx_step tx height, tx_undo tx undo)] := by
  unfold tx_steps
  rw [List.zip_append hl.symm, List.map_append]
  rfl

theorem apply_txs_prefix (h : Reads s (some env.prefetched)) (txs : List Transaction)
    (ha : apply_txs env 0 txs (start_applying s) = (.ok (), st)) :
    ∃ undos, Prefix env s txs undos st := by
  induction txs using List.reverseRecOn generalizing st with
  | nil =>
    cases ha
    exact ⟨[], h, rfl, trivial, rfl, rfl, rfl⟩
  | append_singleton txs tx ih =>
    rw [apply_txs_append] at ha
    cases hp : apply_txs env 0 txs (start_applying s) with
    | mk r st₀ =>
      rw [hp] at ha
      cases r with
      | error e => cases ha
      | ok u =>
        obtain ⟨undos, hpre⟩ := ih hp
        dsimp only at ha
        rw [apply_txs] at ha
        cases hx : apply_tx env (0 + txs.length) tx st₀ with
        | mk r st₁ =>
          rw [hx] at ha
          cases r with
          | error e => cases ha
          | ok u =>
            cases ha
            obtain ⟨hr, -, undo, happ, hrec, hview, hpaid⟩ := apply_tx_view hpre.reads hx
            rw [hpre.view] at hrec hview hpaid
            refine ⟨undos ++ [undo], hr, ?_, ?_, ?_, paidAll_append hpre.length hpre.paid hpaid, ?_⟩
            · simp [hpre.length]
            · rw [tx_steps_append hpre.length, recordsAll_append]
              exact ⟨hpre.records, hrec, trivial⟩
            · rw [tx_steps_append hpre.length, afterAll_append, hview]
              rfl
            · rw [happ, hpre.applied, List.mapIdx_append]
              simp [hpre.length]

theorem rollback_eq {block : Block} {pre post : List Transaction} (undos : List TxUndo)
    (hl : undos.length = pre.length) (front : List Transaction)
    (hb : block.transactions = front ++ (pre ++ post)) (s : UtxoSet) :
    rollback block s (undos.mapIdx fun i undo => ⟨front.length + i, undo⟩) = disconnect_txs (pre.zip undos) s := by
  induction pre generalizing undos front with
  | nil =>
    obtain rfl : undos = [] := by simpa using hl
    rfl
  | cons tx pre ih =>
    cases undos with
    | nil => cases hl
    | cons undo undos =>
      have hrest := ih undos (by simpa using hl) (front ++ [tx]) (by simpa using hb)
      have htx : block.transactions[front.length]? = some tx := by simp [hb]
      have hidx : (undos.mapIdx fun i undo => (⟨front.length + (i + 1), undo⟩ : AppliedTx)) =
          undos.mapIdx fun i undo => ⟨(front ++ [tx]).length + i, undo⟩ := by
        congr 1
        funext i undo
        simp only [List.length_append, List.length_singleton, AppliedTx.mk.injEq, and_true]
        omega
      rw [List.mapIdx_cons, hidx, List.zip_cons_cons, disconnect_txs, ← hrest]
      simp [rollback, htx]

end

end AvilaNode
