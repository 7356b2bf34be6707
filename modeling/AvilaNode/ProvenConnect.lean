import AvilaNode.Utreexo

/-! When a proven connect deletes from the accumulator exactly what the block spends. -/

namespace AvilaNode

open ByteStrings Layers Ledger UtxoSet

namespace Utreexo

variable {e : OutPoint × Coin}

section

variable [Platform] {encode_coin : Coin → List UInt8} {Stump Proof : Type} {R : Stumps Stump Proof}

def Spent (block : Block) (ctx : ConnectContext) (S : UtxoSet) (e : OutPoint × Coin) : Prop :=
  e.1 ∈ external_inputs (context_height ctx) [] block.transactions ∧ S.get e.1 = some e.2

def Surviving (block : Block) (ctx : ConnectContext) (e : OutPoint × Coin) : Prop :=
  after_txs (context_height ctx) block.transactions (fun _ => none) e.1 = some e.2

def Accounted (block : Block) (ctx : ConnectContext) (spends : List (OutPoint × Coin)) (e : OutPoint × Coin) :
    Prop :=
  e.1 ∈ external_inputs (context_height ctx) [] block.transactions ∨
    (Counted block e.1 ∧ after_txs (context_height ctx) block.transactions (bundle_view spends) e.1 = some e.2)

def Announced (block : Block) (S : UtxoSet) (spends : List (OutPoint × Coin)) (e : OutPoint × Coin) : Prop :=
  Counted block e.1 ∨ (S.get e.1 = some e.2 ∧ e ∉ spends)

variable {block : Block} {ctx : ConnectContext}

theorem connect_block_proven_ok {acc next : Stump} {spends : List (OutPoint × Coin)} {proof : Proof}
    {undo : BlockUndo} (h : connect_block_proven encode_coin R block acc spends proof ctx = (.ok undo, next)) :
    R.verify acc proof (spends.map (leaf_for encode_coin)) = .ok true ∧ missing_spend block spends = none ∧
      ∃ overlay, connect_block block (seed_overlay spends UtxoSet.new) ctx = (.ok undo, overlay) ∧
        R.modify acc ((proven_adds block overlay).map (leaf_for encode_coin))
          (spends.map (leaf_for encode_coin)) proof = .ok next := by
  unfold connect_block_proven verify_spend_set apply at h
  cases hv : R.verify acc proof (spends.map (leaf_for encode_coin)) with
  | error e => simp [hv] at h
  | ok verified =>
    cases verified with
    | false => simp [hv] at h
    | true =>
      cases hm : missing_spend block spends with
      | some op => simp [hv, hm] at h
      | none =>
        cases hc : connect_block block (seed_overlay spends UtxoSet.new) ctx with
        | mk verdict overlay =>
          cases verdict with
          | panicked => simp [hv, hm, hc] at h
          | err e => simp [hv, hm, hc] at h
          | ok undo' =>
            cases hu : R.modify acc ((proven_adds block overlay).map (leaf_for encode_coin))
                (spends.map (leaf_for encode_coin)) proof with
            | error e => simp [hv, hm, hc, hu] at h
            | ok next' =>
              simp only [hv, hm, hc, hu, Prod.mk.injEq, Proven.ok.injEq] at h
              obtain ⟨rfl, rfl⟩ := h
              exact ⟨rfl, rfl, overlay, rfl, hu⟩

theorem Surviving.touched (h : Surviving block ctx e) :
    TouchedBy (context_height ctx) block.transactions e.1 := by
  rcases after_txs_some h with hn | ⟨tx, htx, hm⟩
  · cases hn
  · exact ⟨tx, htx, .inr hm⟩

theorem surviving_of_touched (v : View OutPoint Coin) (h : TouchedBy (context_height ctx) block.transactions e.1) :
    Surviving block ctx e ↔ after_txs (context_height ctx) block.transactions v e.1 = some e.2 := by
  rw [Surviving, after_txs_touched (fun _ => none) v h]

/-- A proven connect leaves the accumulator with exactly the leaves of the coins left when, and only when,
every coin of the bundle is accounted for and every surviving output is announced. -/
theorem connect_block_proven_exact {leaves : Stump → Set Hash256} (hR : R.Laws leaves) {acc next : Stump}
    {spends : List (OutPoint × Coin)} {proof : Proof} {undo : BlockUndo} {S : UtxoSet}
    (hS : leaves acc = leaves_of encode_coin fun e => S.get e.1 = some e.2)
    (hinj : ∀ a, a ∈ spends ∨ Surviving block ctx a → ∀ b, S.get b.1 = some b.2 ∨ Surviving block ctx b →
      leaf_for encode_coin a = leaf_for encode_coin b → a = b)
    (h : connect_block_proven encode_coin R block acc spends proof ctx = (.ok undo, next)) :
    leaves next = (leaves acc \ leaves_of encode_coin (Spent block ctx S))
        ∪ leaves_of encode_coin (Surviving block ctx) ↔
      (∀ e ∈ spends, Accounted block ctx spends e) ∧ ∀ e, Surviving block ctx e → Announced block S spends e := by
  obtain ⟨hverify, -, overlay, hconnect, hmodify⟩ := connect_block_proven_ok h
  obtain ⟨hok, hseed⟩ := seed_overlay_view spends
  have hsteps := connect_block_steps hok hconnect
  have hrecords := hsteps.records
  have hafter := hsteps.view
  rw [hseed] at hrecords hafter
  have hadds (e : OutPoint × Coin) : e ∈ proven_adds block overlay ↔ Counted block e.1 ∧
      after_txs (context_height ctx) block.transactions (bundle_view spends) e.1 = some e.2 := by
    rw [← hafter]
    exact mem_proven_adds
  -- every bundle coin is in `S`
  have hmem : ∀ e ∈ spends, S.get e.1 = some e.2 := by
    intro e he
    have hl := hR.verify _ _ _ hverify _ (List.mem_map_of_mem he)
    rw [hS] at hl
    obtain ⟨b, hb, hl⟩ := hl
    rw [hinj e (.inl he) b (.inl hb) hl.symm]
    exact hb
  rw [hR.modify _ _ _ _ _ hmodify]
  have hleft (a : OutPoint × Coin) (ha : a ∈ proven_adds block overlay) :
      a ∈ spends ∧ ¬ TouchedBy (context_height ctx) block.transactions a.1 ∨ Surviving block ctx a := by
    obtain ⟨-, hc⟩ := (hadds a).mp ha
    by_cases ht : TouchedBy (context_height ctx) block.transactions a.1
    · exact .inr ((surviving_of_touched _ ht).mpr hc)
    · rw [after_txs_untouched ht] at hc
      exact .inl ⟨mem_of_bundle_view hc, ht⟩
  have hadded (a : OutPoint × Coin) (ha : a ∈ proven_adds block overlay) :
      S.get a.1 = some a.2 ∨ Surviving block ctx a := (hleft a ha).imp_left fun h => hmem a h.1
  constructor
  · intro heq
    constructor
    · intro e he
      by_cases hext : e.1 ∈ external_inputs (context_height ctx) [] block.transactions
      · exact .inl hext
      -- the leaf is no spent coin's, so it must stay, though the update deletes it
      have hin : leaf_for encode_coin e ∈ (leaves acc \ leaves_of encode_coin (Spent block ctx S))
          ∪ leaves_of encode_coin (Surviving block ctx) := by
        refine .inl ⟨hS ▸ ⟨e, hmem e he, rfl⟩, ?_⟩
        rintro ⟨b, ⟨hb, hbS⟩, hl⟩
        exact hext (hinj e (.inl he) b (.inl hbS) hl.symm ▸ hb)
      rw [← heq] at hin
      rcases hin with ⟨-, hdel⟩ | hadd
      · exact absurd (List.mem_map_of_mem he) hdel
      · obtain ⟨a, ha, hl⟩ := List.mem_map.mp hadd
        obtain rfl := hinj e (.inl he) a (hadded a ha) hl.symm
        exact .inr ((hadds e).mp ha)
    · intro e he
      have hin : leaf_for encode_coin e ∈ (leaves acc \ leaves_of encode_coin (Spent block ctx S))
          ∪ leaves_of encode_coin (Surviving block ctx) := .inr ⟨e, he, rfl⟩
      rw [← heq] at hin
      rcases hin with ⟨hold, hdel⟩ | hadd
      · rw [hS] at hold
        obtain ⟨b, hb, hl⟩ := hold
        obtain rfl := hinj e (.inr he) b (.inl hb) hl.symm
        exact .inr ⟨hb, fun hm => hdel (List.mem_map_of_mem hm)⟩
      · obtain ⟨a, ha, hl⟩ := List.mem_map.mp hadd
        obtain rfl := hinj e (.inr he) a (hadded a ha) hl.symm
        exact .inl ((hadds e).mp ha).1
  · rintro ⟨hacc, hann⟩
    ext x
    constructor
    · rintro (⟨hx, hdel⟩ | hx)
      · refine .inl ⟨hx, ?_⟩
        rintro ⟨b, ⟨hb, hbS⟩, hl⟩
        obtain ⟨c, hc⟩ := external_present hsteps.length hrecords hb
        have hm := mem_of_bundle_view hc
        have hcb : c = b.2 := Option.some.inj ((hmem _ hm).symm.trans hbS)
        rw [hcb] at hm
        exact hdel (List.mem_map.mpr ⟨b, hm, hl⟩)
      · obtain ⟨a, ha, rfl⟩ := List.mem_map.mp hx
        rcases hleft a ha with ⟨hm, ht⟩ | hs
        · -- an outpoint no transaction touched still holds its bundle coin
          refine .inl ⟨hS ▸ ⟨a, hmem a hm, rfl⟩, ?_⟩
          rintro ⟨b, ⟨hb, hbS⟩, hl⟩
          obtain rfl := hinj a (.inl hm) b (.inl hbS) hl.symm
          exact ht (external_touched hb)
        · exact .inr ⟨a, hs, rfl⟩
    · rintro (⟨hx, hspend⟩ | ⟨e, he, rfl⟩)
      · by_cases hdel : x ∈ spends.map (leaf_for encode_coin)
        · obtain ⟨e, he, rfl⟩ := List.mem_map.mp hdel
          rcases hacc e he with hext | hstays
          · exact absurd ⟨e, ⟨hext, hmem e he⟩, rfl⟩ hspend
          · exact .inr (List.mem_map_of_mem ((hadds e).mpr hstays))
        · exact .inl ⟨hx, hdel⟩
      · rcases hann e he with hcounted | ⟨hheld, hkept⟩
        · exact .inr (List.mem_map_of_mem ((hadds e).mpr ⟨hcounted, (surviving_of_touched _ he.touched).mp he⟩))
        · refine .inl ⟨hS ▸ ⟨e, hheld, rfl⟩, fun hdel => ?_⟩
          obtain ⟨a, ha, hl⟩ := List.mem_map.mp hdel
          exact hkept (hinj a (.inl ha) e (.inl hheld) hl ▸ ha)

def leaf_list : Stumps (List Hash256) Unit where
  verify acc _ hashes := .ok (hashes.all acc.contains)
  modify acc adds dels _ :=
    if dels.all acc.contains then .ok ((acc.filter fun leaf => !dels.contains leaf) ++ adds) else .error "not a leaf"

omit [Platform] in
theorem leaf_list_laws : leaf_list.Laws fun acc => {h | h ∈ acc} where
  verify acc _ hashes h := by
    simpa [leaf_list] using h
  modify acc adds dels _ next h := by
    unfold leaf_list at h
    dsimp only at h
    split at h
    · cases h
      ext x
      simp
    · cases h

end

section Sample

attribute [local instance] Platform.sample

def sample_encode (coin : Coin) : List UInt8 := le 8 coin.out.value.toNat

def sample_extra : OutPoint × Coin := (⟨9, 0⟩, ⟨⟨8, []⟩, 1, false⟩)

def sample_extended : UtxoSet := sample_set.put sample_extra.1 (some sample_extra.2)

def sample_coins : List (OutPoint × Coin) := [(sample_outpoint, sample_coin), sample_extra]

def sample_acc : List Hash256 := sample_coins.map (leaf_for sample_encode)

theorem sample_extended_get (e : OutPoint × Coin) : sample_extended.get e.1 = some e.2 ↔ e ∈ sample_coins := by
  have hs : Ok sample_set := sample_set_reachable.ok
  have hview : sample_extended.get = bundle_view sample_coins := by
    rw [sample_extended, hs.get_put, sample_set, new_ok.get_put, new_ok.get_eq]
    rfl
  rw [hview]
  constructor
  · exact mem_of_bundle_view
  · intro he
    rcases List.mem_cons.mp he with rfl | he
    · rfl
    · obtain rfl := List.mem_singleton.mp he
      rfl

def sample_outputs : List (OutPoint × Coin) :=
  [(⟨100, 0⟩, ⟨⟨5000000000, []⟩, 1, true⟩), (⟨7, 0⟩, ⟨⟨3, []⟩, 1, false⟩)]

theorem sample_surviving (h : Surviving sample_block sample_context e) :
    e ∈ sample_outputs := by
  have hh : context_height sample_context = 1 := by decide
  have hafter : after_txs 1 sample_block.transactions (fun _ => none) = writeAll (fun _ => none)
      [(⟨100, 0⟩, some ⟨⟨5000000000, []⟩, 1, true⟩), (sample_outpoint, none), (⟨7, 0⟩, some ⟨⟨3, []⟩, 1, false⟩)] :=
        rfl
  obtain ⟨op, c⟩ := e
  rw [Surviving, hh, hafter] at h
  simp only [writeAll, Function.update_apply] at h
  split_ifs at h with h₁ h₂ h₃
  · simp [sample_outputs, h₁, (Option.some.inj h).symm]
  · simp [sample_outputs, h₃, (Option.some.inj h).symm]

theorem sample_distinct {a b : OutPoint × Coin} (ha : a ∈ sample_coins ++ sample_outputs)
    (hb : b ∈ sample_coins ++ sample_outputs) (h : leaf_for sample_encode a = leaf_for sample_encode b) : a = b := by
  have hall : ∀ a ∈ sample_coins ++ sample_outputs, ∀ b ∈ sample_coins ++ sample_outputs,
      leaf_for sample_encode a = leaf_for sample_encode b → a = b := by decide
  exact hall a ha b hb h

def sample_spends : List (OutPoint × Coin) := [(sample_outpoint, sample_coin)]

def sample_next : List Hash256 := (sample_extra :: sample_outputs).map (leaf_for sample_encode)

theorem sample_leaves : {h | h ∈ sample_acc} = leaves_of sample_encode fun e =>
    sample_extended.get e.1 = some e.2 := by
  ext h
  simp only [sample_acc, List.mem_map, Set.mem_ofPred_eq, leaves_of, sample_extended_get]

theorem sample_injective (a : OutPoint × Coin) (ha : a ∈ sample_coins ∨ Surviving sample_block sample_context a)
    (b : OutPoint × Coin) (hb : sample_extended.get b.1 = some b.2 ∨ Surviving sample_block sample_context b)
    (h : leaf_for sample_encode a = leaf_for sample_encode b) : a = b := by
  apply sample_distinct (List.mem_append.mpr (ha.imp_right sample_surviving)) ?_ h
  exact List.mem_append.mpr (hb.imp (sample_extended_get b).mp sample_surviving)

theorem connect_block_proven_exact_spend :
    ({h | h ∈ sample_next} = ({h | h ∈ sample_acc} \ leaves_of sample_encode
          (Spent sample_block sample_context sample_extended))
        ∪ leaves_of sample_encode (Surviving sample_block sample_context)) ↔
      (∀ e ∈ sample_spends, Accounted sample_block sample_context sample_spends e) ∧
        ∀ e, Surviving sample_block sample_context e → Announced sample_block sample_extended sample_spends e := by
  have hconnects : connect_block_proven sample_encode leaf_list sample_block sample_acc sample_spends
    () sample_context =
      (.ok ⟨[⟨[], []⟩, ⟨[sample_coin], []⟩]⟩, sample_next) := by decide
  apply connect_block_proven_exact leaf_list_laws sample_leaves ?_ hconnects
  intro a ha
  exact sample_injective a (ha.imp_left fun h => List.mem_append_left _ h)

theorem connect_block_proven_drops_unspent :
    ¬ ∀ (block : Block) (acc next : List Hash256) (spends : List (OutPoint × Coin)) (ctx : ConnectContext)
        (undo : BlockUndo) (S : UtxoSet),
      {h | h ∈ acc} = leaves_of sample_encode (fun e => S.get e.1 = some e.2) →
      (∀ a, a ∈ spends ∨ Surviving block ctx a → ∀ b, S.get b.1 = some b.2 ∨ Surviving block ctx b →
        leaf_for sample_encode a = leaf_for sample_encode b → a = b) →
      connect_block_proven sample_encode leaf_list block acc spends () ctx = (.ok undo, next) →
      {h | h ∈ next} = ({h | h ∈ acc} \ leaves_of sample_encode (Spent block ctx S))
        ∪ leaves_of sample_encode (Surviving block ctx) := by
  intro h
  have hext : external_inputs (context_height sample_context) [] sample_block.transactions = [sample_outpoint] := by
    decide
  have hg := h sample_block sample_acc (sample_outputs.map (leaf_for sample_encode)) sample_coins sample_context
    ⟨[⟨[], []⟩, ⟨[sample_coin], []⟩]⟩ sample_extended sample_leaves sample_injective (by decide)
  have hin : leaf_for sample_encode sample_extra ∈ sample_outputs.map (leaf_for sample_encode) := by
    refine hg.ge (.inl ⟨by decide, ?_⟩)
    rintro ⟨b, ⟨hb, hS⟩, hl⟩
    obtain rfl := sample_distinct (List.mem_append_left _ ((sample_extended_get b).mp hS)) (by decide) hl
    rw [hext] at hb
    revert hb
    decide
  revert hin
  decide

end Sample

end Utreexo

end AvilaNode
