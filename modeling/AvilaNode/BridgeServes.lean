import AvilaNode.ConnectLocal
import AvilaNode.ProvenConnect
import AvilaNode.ReadPaths

/-! The bridge: it proves the coins of each connected block while their leaves are live. -/

namespace AvilaNode

open Layers Ledger UtxoSet

/-- `rustreexo::MemForest`; `no_proof` is `Proof::default()`. -/
structure Forests (Forest Proof : Type) where
  new : Forest
  no_proof : Proof
  prove : Forest → List Hash256 → Except String Proof
  modify : Forest → List Hash256 → List Hash256 → Except String Forest

namespace Utreexo

def block_spends (block : Block) (undo : BlockUndo) : List (OutPoint × Coin) :=
  (block.transactions.zip undo.txs).flatMap fun (tx, tx_undo) =>
    if tx.is_coinbase then [] else (tx.inputs.zip tx_undo.spent).map fun (input, coin) =>
      (input.previous_output, coin)

def intra_spent (block : Block) : List OutPoint :=
  (block.transactions.filter fun tx => !tx.is_coinbase).flatMap fun tx => tx.inputs.map TxIn.previous_output

section

variable {Forest Proof : Type}

def spend_proof (F : Forests Forest Proof) (forest : Forest) (dels : List Hash256) : Except String Proof :=
  if dels = [] then .ok F.no_proof else F.prove forest dels

/-- `forest` is none once stale; `records` is the log, oldest first, and the index over it. -/
structure ProofBridge (Forest Proof : Type) where
  forest : Option Forest
  records : List (BlockHash × List (OutPoint × Coin) × Proof)
  tip : ℕ

end

variable [Platform]

def block_adds (block : Block) (height : ℕ) : List (OutPoint × Coin) :=
  block.transactions.flatMap fun tx => tx.outputs.zipIdx.filterMap fun (out, vout) =>
    if is_unspendable out.script_pubkey then none
    else if (intra_spent block).contains ⟨tx.txid, vout⟩ then none
    else some (⟨tx.txid, vout⟩, ⟨out, height, tx.is_coinbase⟩)

namespace ProofBridge

variable {Forest Proof : Type} (F : Forests Forest Proof) (encode_coin : Coin → List UInt8)

def spawned (records : List (BlockHash × List (OutPoint × Coin) × Proof)) : ProofBridge Forest Proof :=
  ⟨some F.new, records, 2 ^ 32 - 1⟩

def bundle (b : ProofBridge Forest Proof) (hash : BlockHash) : Option (List (OutPoint × Coin) × Proof) :=
  (b.records.reverse.find? fun r => r.1 == hash).map Prod.snd

def record (b : ProofBridge Forest Proof) (hash : BlockHash) (block : Block) (undo : BlockUndo) (height : ℕ) :
    Except String Bool × ProofBridge Forest Proof :=
  match b.forest with
  | none => (.ok false, b)
  | some forest =>
    if (b.records.any fun r => r.1 == hash) && b.tip == height then (.ok false, b)
    else
      let spends := block_spends block undo
      let dels := spends.map (leaf_for encode_coin)
      match spend_proof F forest dels with
      | .error e => (.error ("bridge prove divergence: " ++ e), b)
      | .ok proof =>
        let b := { b with records := b.records ++ [(hash, spends, proof)] }
        match F.modify forest ((block_adds block height).map (leaf_for encode_coin)) dels with
        | .error e => (.error ("bridge forest: " ++ e), b)
        | .ok next => (.ok true, { b with forest := some next, tip := height })

end ProofBridge

end Utreexo

end AvilaNode

namespace AvilaNode

open Layers Ledger UtxoSet

/-- A forest proves exactly its live leaves, and a matching stump accepts its proofs and follows its updates. -/
structure Forests.Laws {Forest Stump Proof : Type} (F : Forests Forest Proof) (R : Stumps Stump Proof)
    (leaves : Forest → Set Hash256) (Matches : Stump → Forest → Prop) : Prop where
  prove : ∀ forest hashes, (∃ proof, F.prove forest hashes = .ok proof) ↔ ∀ h ∈ hashes, h ∈ leaves forest
  modify : ∀ forest adds dels, (∀ h ∈ dels, h ∈ leaves forest) → ∃ next, F.modify forest adds dels = .ok next ∧
    leaves next = (leaves forest \ {h | h ∈ dels}) ∪ {h | h ∈ adds}
  verify : ∀ acc forest, Matches acc forest → ∀ hashes proof, Utreexo.spend_proof F forest hashes = .ok proof →
    R.verify acc proof hashes = .ok true
  follow : ∀ acc forest, Matches acc forest → ∀ adds dels proof next,
    Utreexo.spend_proof F forest dels = .ok proof → F.modify forest adds dels = .ok next →
    ∃ acc', R.modify acc adds dels proof = .ok acc' ∧ Matches acc' next

namespace Utreexo

variable {hash : BlockHash}

section

variable [Platform]

/-- A block the bridge and the accumulator follow: it spends none of its own outputs and lands on no coin, its
outputs have outpoints of their own and are not negative, and only its first transaction is a coinbase. -/
structure Servable (block : Block) (s : UtxoSet) : Prop where
  own : ∀ op ∈ intra_spent block, op ∉ bip30_outpoints block
  fresh : ∀ op ∈ bip30_outpoints block, s.get op = none
  distinct : (bip30_outpoints block).Nodup
  coinbase : ∀ tx ∈ block.transactions.drop 1, tx.is_coinbase = false
  values : ∀ tx ∈ block.transactions, ∀ out ∈ tx.outputs, 0 ≤ out.value

structure SpendSet (block : Block) (v : View OutPoint Coin) (spends : List (OutPoint × Coin)) : Prop where
  held : ∀ e ∈ spends, v e.1 = some e.2
  spent : ∀ e ∈ spends, e.1 ∈ intra_spent block
  complete : ∀ op ∈ intra_spent block, ∃ c, (op, c) ∈ spends

variable {block : Block} {height : ℕ} {op : OutPoint} {s : UtxoSet} {undo : BlockUndo}
  {spends : List (OutPoint × Coin)} {links : List Link}

theorem mem_intra_spent :
    op ∈ intra_spent block ↔ ∃ tx ∈ block.transactions, op ∈ (tx_step tx height).takes := by
  simp only [intra_spent, List.mem_flatMap, List.mem_filter, Bool.not_eq_true', tx_step, and_assoc]
  constructor
  · rintro ⟨tx, htx, hcb, hop⟩
    exact ⟨tx, htx, by simpa [hcb] using hop⟩
  · rintro ⟨tx, htx, hop⟩
    split at hop
    · cases hop
    · rename_i hcb
      exact ⟨tx, htx, by simpa using hcb, hop⟩

variable {v : View OutPoint Coin} {txs : List Transaction} {undos : List TxUndo}

theorem recorded_takes (h : RecordsAll v (tx_steps height txs undos))
    (hown : ∀ a ∈ txs, ∀ op ∈ (tx_step a height).takes, ∀ b ∈ txs, op ∉ (tx_step b height).makes.map Prod.fst)
    {q : Transaction × TxUndo} (hq : q ∈ txs.zip undos) {c : Coin} (hc : (op, c) ∈ (tx_undo q.1 q.2).taken) :
    op ∈ (tx_step q.1 height).takes ∧ v op = some c := by
  induction txs generalizing v undos with
  | nil => cases hq
  | cons tx txs ih =>
    cases undos with
    | nil => cases hq
    | cons undo undos =>
      obtain ⟨hr, hrest⟩ := h
      rcases List.mem_cons.mp hq with rfl | hq
      · exact ⟨hr.taken_takes op c hc, hr.taken_of op c hc⟩
      obtain ⟨ht, hv⟩ := ih hrest (fun a ha op hop b hb =>
        hown a (List.mem_cons_of_mem _ ha) op hop b (List.mem_cons_of_mem _ hb)) hq
      have hm := hown q.1 (List.mem_cons_of_mem _ (List.of_mem_zip hq).1) op ht tx List.mem_cons_self
      rw [Step.after_of_not_made hm] at hv
      have hn : op ∉ (tx_step tx height).takes := fun hn => by
        rw [Step.taken_of_mem hn] at hv
        cases hv
      rw [Step.taken_of_notMem hn] at hv
      exact ⟨ht, hv⟩

variable {tx : Transaction}

theorem takes_recorded (hl : undos.length = txs.length) (h : RecordsAll v (tx_steps height txs undos))
    (htx : tx ∈ txs) (hop : op ∈ (tx_step tx height).takes) :
    ∃ undo c, (tx, undo) ∈ txs.zip undos ∧ (op, c) ∈ (tx_undo tx undo).taken := by
  induction txs generalizing v undos with
  | nil => cases htx
  | cons a txs ih =>
    cases undos with
    | nil => cases hl
    | cons undo undos =>
      obtain ⟨hr, hrest⟩ := h
      rcases List.mem_cons.mp htx with rfl | htx
      · obtain ⟨c, hc⟩ := hr.of_takes op hop
        exact ⟨undo, c, List.mem_cons_self, hc⟩
      · obtain ⟨u, c, hz, hc⟩ := ih (by simpa using hl) hrest htx
        exact ⟨u, c, List.mem_cons_of_mem _ hz, hc⟩

variable {ctx : ConnectContext}

theorem Servable.spend_set {t : UtxoSet} (h : Servable block s) (hc : Stepped block s t ctx undo) :
    SpendSet block s.get (block_spends block undo) := by
  have hown : ∀ a ∈ block.transactions, ∀ op ∈ (tx_step a (context_height ctx)).takes, ∀ b ∈ block.transactions,
      op ∉ (tx_step b (context_height ctx)).makes.map Prod.fst := fun a ha op hop b hb hm =>
    h.own op (mem_intra_spent.mpr ⟨a, ha, hop⟩) (made_outpoint hb hm)
  have hmem (e : OutPoint × Coin) (he : e ∈ block_spends block undo) :
      e.1 ∈ intra_spent block ∧ s.get e.1 = some e.2 := by
    obtain ⟨q, hq, he⟩ := List.mem_flatMap.mp he
    dsimp only at he
    split at he
    · cases he
    · obtain ⟨op, c⟩ := e
      obtain ⟨ht, hv⟩ := recorded_takes hc.records hown hq he
      exact ⟨mem_intra_spent.mpr ⟨q.1, (List.of_mem_zip hq).1, ht⟩, hv⟩
  refine ⟨fun e he => (hmem e he).2, fun e he => (hmem e he).1, fun op hop => ?_⟩
  obtain ⟨tx, htx, hop⟩ := (@mem_intra_spent _ _ (context_height ctx) _).mp hop
  obtain ⟨undo', c, hz, hc⟩ := takes_recorded hc.length hc.records htx hop
  refine ⟨c, List.mem_flatMap.mpr ⟨_, hz, ?_⟩⟩
  unfold tx_step at hop
  split at hop
  · cases hop
  · rename_i hcb
    dsimp only
    rw [if_neg hcb]
    exact hc

theorem SpendSet.outside (h : Servable block s) (hs : SpendSet block s.get spends)
    (hop : op ∈ bip30_outpoints block) :
    bundle_view spends op = none := by
  cases hc : bundle_view spends op with
  | none => rfl
  | some c => exact absurd hop (h.own op (hs.spent _ (mem_of_bundle_view hc)))

theorem SpendSet.agrees (h : Servable block s) (hs : SpendSet block s.get spends)
    (hop : TouchedBy height block.transactions op) :
    s.get op = bundle_view spends op := by
  obtain ⟨tx, htx, ht | hm⟩ := hop
  · obtain ⟨c, hc⟩ := hs.complete op (mem_intra_spent.mpr ⟨tx, htx, ht⟩)
    rw [bundle_view_of_mem hs.held hc]
    exact hs.held _ hc
  · have hout := made_outpoint htx hm
    rw [h.fresh op hout, hs.outside h hout]

theorem seed_overlay_have (spends : List (OutPoint × Coin)) (op : OutPoint) :
    (seed_overlay spends UtxoSet.new).have_ op = (bundle_view spends op).isSome := by
  obtain ⟨hok, hg⟩ := seed_overlay_view spends
  have hsettled : (seed_overlay spends UtxoSet.new).ListSettled op := by
    have hleaf : ∀ (es : List (OutPoint × Coin)) (s : UtxoSet), s.base = none ∧ s.runs = [] ∧ s.backend = none →
        (seed_overlay es s).base = none ∧ (seed_overlay es s).runs = [] ∧ (seed_overlay es s).backend = none := by
      intro es
      induction es with
      | nil => exact fun _ h => h
      | cons e es ih => exact fun s h => ih _ h
    obtain ⟨hbase, hruns, hbackend⟩ := hleaf spends UtxoSet.new ⟨rfl, rfl, rfl⟩
    rw [listSettled_eq, hbase, hruns, hbackend]
    intro _ _ _ be c hb
    cases hb
  rw [← ((hok.list_agree op).mpr hsettled).1, hg]

theorem SpendSet.connects {t : UtxoSet} (h : Servable block s) (hs : SpendSet block s.get spends) (hok : Ok s)
    (hc : connect_block block s ctx = (.ok undo, t)) :
    ∃ overlay, connect_block block (seed_overlay spends UtxoSet.new) ctx = (.ok undo, overlay) := by
  obtain ⟨hseed, hg⟩ := seed_overlay_view spends
  apply connect_block_local hok hseed ?_ ?_ hc
  · intro op hop
    rw [hg]
    exact hs.agrees h hop
  · unfold bip30_scan
    split
    · apply List.find?_eq_none.mpr
      intro op hop
      rw [seed_overlay_have, hs.outside h hop]
      decide
    · rfl

theorem Servable.output_after (h : Servable block s) {vout : ℕ}
    {out :
    TxOut} (htx : tx ∈ block.transactions) (hout : tx.outputs[vout]? = some out) (hv : v ⟨tx.txid, vout⟩ = none) :
    after_txs height block.transactions v ⟨tx.txid, vout⟩ =
      if is_unspendable out.script_pubkey then none else some ⟨out, height, tx.is_coinbase⟩ := by
  have hlt : vout < tx.outputs.length := (List.getElem?_eq_some_iff.mp hout).1
  have hop : (⟨tx.txid, vout⟩ : OutPoint) ∈ bip30_outpoints block := mem_bip30_outpoints.mpr ⟨tx, htx, rfl, hlt⟩
  have htakes : ∀ a ∈ block.transactions, (⟨tx.txid, vout⟩ : OutPoint) ∉ (tx_step a height).takes := fun a ha ht =>
    h.own _ (mem_intra_spent.mpr ⟨a, ha, ht⟩) hop
  -- the outpoint is this transaction's alone
  have hmaker : ∀ a ∈ block.transactions, ∀ c, ((⟨tx.txid, vout⟩ : OutPoint), c) ∈ (tx_step a height).makes →
      is_unspendable out.script_pubkey = false ∧ c = ⟨out, height, tx.is_coinbase⟩ := by
    intro a ha c hc
    have hpair := (List.nodup_flatMap.mp h.distinct).2
    obtain rfl : a = tx := by
      by_contra hne
      have hdisjoint := @List.Pairwise.forall _ _ _ ⟨fun _ _ hd => hd.symm⟩ hpair _ ha _ htx hne
      have hlt' : vout < a.outputs.length := by
        have := created_vout_lt hc
        simpa using this
      have hid : tx.txid = a.txid := (created_vout hc).1
      exact hdisjoint (List.mem_map.mpr ⟨vout, List.mem_range.mpr hlt', by rw [hid]⟩)
        (List.mem_map.mpr ⟨vout, List.mem_range.mpr hlt, rfl⟩)
    rw [tx_step, created_eq] at hc
    obtain ⟨⟨out', i⟩, hi, he⟩ := List.mem_filterMap.mp hc
    dsimp only at he
    split at he
    · cases he
    rename_i hspendable
    obtain ⟨hop', rfl⟩ := Prod.mk.inj (Option.some.inj he)
    obtain rfl := (OutPoint.mk.inj hop').2
    rw [List.mk_mem_zipIdx_iff_getElem?, hout] at hi
    obtain rfl := Option.some.inj hi
    exact ⟨by simpa using hspendable, rfl⟩
  by_cases hu : is_unspendable out.script_pubkey
  · rw [if_pos hu, after_txs_untouched, hv]
    rintro ⟨a, ha, hop' | hop'⟩
    · exact htakes a ha hop'
    · obtain ⟨⟨op, c⟩, hc, rfl⟩ := List.mem_map.mp hop'
      rw [(hmaker a ha c hc).1] at hu
      cases hu
  · rw [if_neg hu]
    refine after_txs_made htakes (fun a ha d hd => (hmaker a ha d hd).2) ⟨tx, htx, ?_⟩
    rw [tx_step, created_eq]
    exact List.mem_filterMap.mpr ⟨(out, vout), List.mk_mem_zipIdx_iff_getElem?.mpr hout, by simp [hu]⟩

theorem Servable.block_adds (h : Servable block s) (height : ℕ) :
    Utreexo.block_adds block height = block.transactions.flatMap fun tx => (tx_step tx height).makes := by
  unfold Utreexo.block_adds
  apply List.flatMap_congr
  intro tx htx
  rw [tx_step, created_eq]
  apply List.filterMap_congr
  rintro ⟨out, vout⟩ hout
  have hlt := (List.mem_zipIdx hout).2.1
  have hn : (⟨tx.txid, vout⟩ : OutPoint) ∉ intra_spent block := fun hop =>
    h.own _ hop (mem_bip30_outpoints.mpr ⟨tx, htx, rfl, by simpa using hlt⟩)
  simp [hn]

variable {overlay : UtxoSet}

theorem Servable.proven_adds (h : Servable block s) (hs : SpendSet block s.get spends)
    (hg : overlay.get = after_txs height block.transactions (bundle_view spends)) :
    Utreexo.proven_adds block overlay = Utreexo.block_adds block height := by
  rw [h.block_adds]
  unfold Utreexo.proven_adds
  apply List.flatMap_congr
  intro tx htx
  rw [tx_step, created_eq]
  apply List.filterMap_congr
  rintro ⟨out, vout⟩ hout
  rw [List.mk_mem_zipIdx_iff_getElem?] at hout
  obtain ⟨hlt, rfl⟩ := List.getElem?_eq_some_iff.mp hout
  have hvalue := h.values tx htx _ (List.getElem_mem hlt)
  have hop : (⟨tx.txid, vout⟩ : OutPoint) ∈ bip30_outpoints block := mem_bip30_outpoints.mpr ⟨tx, htx, rfl, hlt⟩
  have hnone := hs.outside h hop
  dsimp only
  rw [if_neg (by omega), hg, h.output_after htx hout hnone]
  split <;> rfl

structure Link where
  block : Block
  ctx : ConnectContext
  undo : BlockUndo

/-- Blocks connected one after the other to the empty set, the newest first, each satisfying `P` where it
connects. -/
inductive Chain (P : Block → UtxoSet → Prop) : List Link → UtxoSet → Prop
  | new : Chain P [] UtxoSet.new
  | connect {links : List Link} {s t : UtxoSet} {block : Block} {ctx : ConnectContext} {undo : BlockUndo}
      (h : Chain P links s) (hp : P block s) (hh : context_height ctx = links.length + 1)
      (hc : connect_block block s ctx = (.ok undo, t)) : Chain P (⟨block, ctx, undo⟩ :: links) t

theorem Chain.imp {P Q : Block → UtxoSet → Prop} (hpq : ∀ block s, P block s → Q block s) (h : Chain P links s) :
    Chain Q links s := by
  induction h with
  | new => exact .new
  | connect _ hp hh hc ih => exact ih.connect (hpq _ _ hp) hh hc

theorem Chain.ok {P : Block → UtxoSet → Prop} (h : Chain P links s) : Ok s := by
  induction h with
  | new => exact new_ok
  | connect _ _ _ hc ih => exact (connect_block_steps ih hc).ok

variable {Forest Stump Proof : Type} {F : Forests Forest Proof} {R : Stumps Stump Proof}
  {encode_coin : Coin → List UInt8}

/-- The bridge records each block, and the bundle it then serves connects the block to the accumulator with the
same undo data. -/
inductive Served (F : Forests Forest Proof) (R : Stumps Stump Proof) (encode_coin : Coin → List UInt8)
    (b₀ : ProofBridge Forest Proof) (acc₀ : Stump) : List Link → ProofBridge Forest Proof → Stump → Prop
  | start : Served F R encode_coin b₀ acc₀ [] b₀ acc₀
  | step {links : List Link} {b b' : ProofBridge Forest Proof} {acc acc' : Stump} {link : Link}
      {spends : List (OutPoint × Coin)} {proof : Proof} (h : Served F R encode_coin b₀ acc₀ links b acc)
      (hr : b.record F encode_coin link.ctx.block_hash link.block link.undo (context_height link.ctx) =
        (.ok true, b'))
      (hb : b'.bundle link.ctx.block_hash = some (spends, proof))
      (hc : connect_block_proven encode_coin R link.block acc spends proof link.ctx = (.ok link.undo, acc')) :
      Served F R encode_coin b₀ acc₀ (link :: links) b' acc'

def Apart (encode_coin : Coin → List UInt8) (s : UtxoSet) : Prop :=
  ∀ a b : OutPoint × Coin, s.get a.1 = some a.2 → s.get b.1 = some b.2 →
    leaf_for encode_coin a = leaf_for encode_coin b → a = b

theorem Servable.left (h : Servable block s) (hs : SpendSet block s.get spends) (ha : Apart encode_coin s)
    {e : OutPoint × Coin} (he : after_txs height block.transactions s.get e.1 = some e.2) :
    e ∈ Utreexo.block_adds block height ∨
      (s.get e.1 = some e.2 ∧ leaf_for encode_coin e ∉ spends.map (leaf_for encode_coin)) := by
  obtain ⟨op, c⟩ := e
  by_cases hm : ∃ tx ∈ block.transactions, op ∈ (tx_step tx height).makes.map Prod.fst
  · left
    obtain ⟨tx, htx, hop⟩ := hm
    have hfresh := h.fresh op (made_outpoint htx hop)
    obtain ⟨⟨op', d⟩, hd, rfl⟩ := List.mem_map.mp hop
    have hmade := hd
    rw [tx_step, created_eq] at hd
    obtain ⟨⟨out, vout⟩, hout, hd⟩ := List.mem_filterMap.mp hd
    dsimp only at hd
    split at hd
    · cases hd
    rename_i hspendable
    obtain ⟨rfl, rfl⟩ := Prod.mk.inj (Option.some.inj hd)
    rw [h.output_after htx (List.mk_mem_zipIdx_iff_getElem?.mp hout) hfresh, if_neg hspendable] at he
    obtain rfl := Option.some.inj he
    rw [h.block_adds]
    exact List.mem_flatMap.mpr ⟨tx, htx, hmade⟩
  · right
    have hheld : s.get op = some c := (after_txs_some he).resolve_right hm
    refine ⟨hheld, fun hdel => ?_⟩
    obtain ⟨a, hspend, hl⟩ := List.mem_map.mp hdel
    obtain rfl := ha a (op, c) (hs.held a hspend) hheld hl
    obtain ⟨tx, htx, ht⟩ := (@mem_intra_spent _ _ height _).mp (hs.spent _ hspend)
    rw [after_txs_touched s.get (fun _ => none) ⟨tx, htx, .inl ht⟩] at he
    rcases after_txs_some he with hn | hmade
    · cases hn
    · exact hm hmade

variable {Matches : Stump → Forest → Prop} {leaves : Forest → Set Hash256}

omit [Platform] in
theorem spend_proof_live (hF : F.Laws R leaves Matches) {forest : Forest} {dels : List Hash256} :
    (∃ proof, spend_proof F forest dels = .ok proof) ↔ ∀ x ∈ dels, x ∈ leaves forest := by
  unfold spend_proof
  split
  · rename_i hnil
    simp [hnil]
  · exact hF.prove forest dels

theorem record_ok {b : ProofBridge Forest Proof} {forest next : Forest} {proof : Proof} (hb : b.forest = some forest)
    (ht : b.tip ≠ height)
    (hp : spend_proof F forest ((block_spends block undo).map (leaf_for encode_coin)) = .ok proof)
    (hm : F.modify forest ((Utreexo.block_adds block height).map (leaf_for encode_coin))
      ((block_spends block undo).map (leaf_for encode_coin)) = .ok next) :
    b.record F encode_coin hash block undo height =
      (.ok true, ⟨some next, b.records ++ [(hash, block_spends block undo, proof)], height⟩) := by
  unfold ProofBridge.record
  simp [hb, ht, hp, hm]

theorem connect_block_proven_of {acc next : Stump} {proof : Proof}
    (hv : R.verify acc proof (spends.map (leaf_for encode_coin)) = .ok true) (hm : missing_spend block spends = none)
    (hc : connect_block block (seed_overlay spends UtxoSet.new) ctx = (.ok undo, overlay))
    (hu : R.modify acc ((Utreexo.proven_adds block overlay).map (leaf_for encode_coin))
      (spends.map (leaf_for encode_coin)) proof = .ok next) :
    connect_block_proven encode_coin R block acc spends proof ctx = (.ok undo, next) := by
  unfold connect_block_proven verify_spend_set apply
  simp only [hv, hm, hc, hu]

theorem SpendSet.none_missing (h : Servable block s) (hs : SpendSet block s.get spends) :
    missing_spend block spends = none := by
  unfold missing_spend
  apply List.find?_eq_none.mpr
  intro op hop
  obtain ⟨tx, htx, hop⟩ := List.mem_flatMap.mp hop
  have hcb := h.coinbase tx htx
  have hin : op ∈ intra_spent block :=
    List.mem_flatMap.mpr ⟨tx, List.mem_filter.mpr ⟨List.mem_of_mem_drop htx, by simp [hcb]⟩, hop⟩
  obtain ⟨c, hc⟩ := hs.complete op hin
  have hmem : op ∈ spends.map Prod.fst := List.mem_map.mpr ⟨_, hc, rfl⟩
  simp [hmem]

theorem bridge_run (hF : F.Laws R leaves Matches) {acc₀ : Stump} (hacc : Matches acc₀ F.new)
    (records : List (BlockHash × List (OutPoint × Coin) × Proof))
    (h : Chain (fun block s => Servable block s ∧ Apart encode_coin s) links s) :
    ∃ b acc forest, Served F R encode_coin (ProofBridge.spawned F records) acc₀ links b acc ∧
      b.forest = some forest ∧ b.tip ≠ links.length + 1 ∧ Matches acc forest ∧ Ok s ∧
      leaves_of encode_coin (fun e => s.get e.1 = some e.2) ⊆ leaves forest := by
  induction h with
  | new =>
    refine ⟨_, acc₀, F.new, .start, rfl, ?_, hacc, new_ok, ?_⟩
    · simp [ProofBridge.spawned]
    · rintro x ⟨e, he, -⟩
      rw [new_ok.get_eq] at he
      cases he
  | @connect links s t block ctx undo h hp hh hc ih =>
    obtain ⟨b, acc, forest, hserved, hforest, htip, hmatch, hok, hlive⟩ := ih
    obtain ⟨hplain, hapart⟩ := hp
    have hsteps := connect_block_steps hok hc
    have hspends := hplain.spend_set hsteps
    have hdels : ∀ x ∈ (block_spends block undo).map (leaf_for encode_coin), x ∈ leaves forest := by
      intro x hx
      obtain ⟨e, he, rfl⟩ := List.mem_map.mp hx
      exact hlive ⟨e, hspends.held e he, rfl⟩
    obtain ⟨proof, hproof⟩ := (spend_proof_live hF).mpr hdels
    obtain ⟨next, hnext, hleaves⟩ := hF.modify forest
      ((Utreexo.block_adds block (context_height ctx)).map (leaf_for encode_coin)) _ hdels
    obtain ⟨overlay, hoverlay⟩ := hspends.connects hplain hok hc
    obtain ⟨hseed, hg⟩ := seed_overlay_view (block_spends block undo)
    have hadds := hplain.proven_adds hspends ((connect_block_steps hseed hoverlay).view.trans (by rw [hg]))
    obtain ⟨acc', hacc', hmatch'⟩ := hF.follow acc forest hmatch _ _ _ _ hproof hnext
    refine ⟨_, acc', next, hserved.step (record_ok hforest (hh ▸ htip) hproof hnext) (by simp [ProofBridge.bundle])
      (connect_block_proven_of (hF.verify acc forest hmatch _ _ hproof) (hspends.none_missing hplain) hoverlay
        (hadds ▸ hacc')), rfl, ?_, hmatch', hsteps.ok, ?_⟩
    · simp [hh]
    · rintro x ⟨e, he, rfl⟩
      rw [hsteps.view] at he
      rw [hleaves]
      rcases hplain.left hspends hapart he with hadd | ⟨hheld, hkept⟩
      · exact .inr (List.mem_map_of_mem hadd)
      · exact .inl ⟨hlive ⟨e, hheld, rfl⟩, hkept⟩

theorem bridge_serves {leaves : Forest → Set Hash256} {Matches : Stump → Forest → Prop} (hF : F.Laws R leaves Matches)
    {acc₀ : Stump} (hacc : Matches acc₀ F.new) (records : List (BlockHash × List (OutPoint × Coin) × Proof))
    (h : Chain (fun block s => Servable block s ∧ Apart encode_coin s) links s) :
    ∃ b acc, Served F R encode_coin (ProofBridge.spawned F records) acc₀ links b acc := by
  obtain ⟨b, acc, -, hserved, -⟩ := bridge_run hF hacc records h
  exact ⟨b, acc, hserved⟩

end

def leaf_forest : Forests (List Hash256) Unit where
  new := []
  no_proof := ()
  prove forest hashes := if hashes.all forest.contains then .ok () else .error "not a leaf"
  modify forest adds dels :=
    if dels.all forest.contains then .ok
      ((forest.filter fun leaf => !dels.contains leaf) ++ adds) else .error "not a leaf"

theorem leaf_forest_laws : leaf_forest.Laws leaf_list (fun forest => {h | h ∈ forest}) Eq where
  prove forest hashes := by
    simp [leaf_forest]
  modify forest adds dels h := by
    have hall : dels.all forest.contains = true := by simpa using h
    refine ⟨(forest.filter fun leaf => !dels.contains leaf) ++ adds, by simp only [leaf_forest, hall, if_true], ?_⟩
    ext x
    simp
  verify acc forest hm hashes proof h := by
    subst hm
    unfold spend_proof at h
    split at h
    · rename_i hnil
      simp [leaf_list, hnil]
    unfold leaf_forest at h
    dsimp only at h
    split at h
    · rename_i hall
      simp [leaf_list] at hall ⊢
      exact hall
    · cases h
  follow acc forest hm adds dels proof next _ h := by
    subst hm
    unfold leaf_forest at h
    dsimp only at h
    split at h
    · rename_i hall
      cases h
      exact ⟨_, by simp only [leaf_list, hall, if_true], rfl⟩
    · cases h

theorem record_eq_ok [Platform] {Forest Proof : Type} {F : Forests Forest Proof} {encode_coin : Coin → List UInt8}
    {b b' : ProofBridge Forest Proof} {block : Block} {undo : BlockUndo} {height : ℕ}
    (h : b.record F encode_coin hash block undo height = (.ok true, b')) :
    ∃ forest next proof, b.forest = some forest ∧ b'.forest = some next ∧
      spend_proof F forest ((block_spends block undo).map (leaf_for encode_coin)) = .ok proof ∧
      F.modify forest ((block_adds block height).map (leaf_for encode_coin))
        ((block_spends block undo).map (leaf_for encode_coin)) = .ok next := by
  unfold ProofBridge.record at h
  cases hf : b.forest with
  | none => simp [hf] at h
  | some forest =>
    simp only [hf] at h
    split at h
    · cases h
    · cases hp : spend_proof F forest ((block_spends block undo).map (leaf_for encode_coin)) with
      | error e => simp [hp] at h
      | ok proof =>
        cases hm : F.modify forest ((block_adds block height).map (leaf_for encode_coin))
            ((block_spends block undo).map (leaf_for encode_coin)) with
        | error e => simp [hp, hm] at h
        | ok next =>
          simp only [hp, hm, Prod.mk.injEq, true_and] at h
          subst h
          exact ⟨forest, next, proof, rfl, rfl, hp, hm⟩

theorem served_leaves [Platform] {acc₀ acc : List Hash256} {links : List Link} {b : ProofBridge (List Hash256) Unit}
    (h : Served leaf_forest leaf_list encode_coin (ProofBridge.spawned leaf_forest []) acc₀ links b acc) :
    ∃ forest, b.forest = some forest ∧ ∀ x ∈ forest, ∃ link ∈ links,
      x ∈ (block_adds link.block (context_height link.ctx)).map (leaf_for encode_coin) := by
  induction h with
  | start => exact ⟨[], rfl, by simp⟩
  | @step links b b' acc acc' link spends proof _ hr _ _ ih =>
    obtain ⟨forest, hforest, hadded⟩ := ih
    obtain ⟨forest', next, proof', hforest', hnext, -, hm⟩ := record_eq_ok hr
    obtain rfl : forest = forest' := Option.some.inj (hforest.symm.trans hforest')
    refine ⟨next, hnext, fun x hx => ?_⟩
    unfold leaf_forest at hm
    dsimp only at hm
    split at hm
    · cases hm
      rcases List.mem_append.mp hx with hx | hx
      · obtain ⟨l, hl, hx⟩ := hadded x (List.mem_filter.mp hx).1
        exact ⟨l, List.mem_cons_of_mem _ hl, hx⟩
      · exact ⟨link, List.mem_cons_self, hx⟩
    · cases hm

section Sample

attribute [local instance] Platform.sample

def sample_byte (coin : Coin) : List UInt8 := [UInt8.ofNat coin.out.value.toNat]

theorem sample_leaf (e : OutPoint × Coin) : (leaf_for sample_byte e).toNat % 256 = e.2.out.value.toNat % 256 := by
  have hfold : leaf_for sample_byte e = BitVec.ofNat 256 ((outpoint_key e.1).foldl
      (fun value byte => value * 256 + byte.toNat) 0 * 256 + (UInt8.ofNat e.2.out.value.toNat).toNat) := by
    rw [leaf_for, leaf_hash, sample_byte]
    change BitVec.ofNat 256 ((outpoint_key e.1 ++ [_]).foldl _ 0) = _
    rw [List.foldl_append]
    rfl
  rw [hfold, BitVec.toNat_ofNat, Nat.mod_mod_of_dvd _ (by decide), UInt8.toNat_ofNat']
  omega

def sample_long_tree (height : ℕ) : HeaderTree :=
  let parent := sample_header (BitVec.ofNat 256 (height - 1)) height 0
  let header := sample_header (BitVec.ofNat 256 height) (height + 1) 0
  let genesis := sample_params.genesis_header
  { HeaderTree.new sample_params with
    nodes := (((∅ : Table BlockHash HeaderNode).insert header.hash ⟨header, height, 0, 1, 1, none⟩).insert parent.hash
      ⟨parent, height - 1, 0, 1, 1, some genesis.hash⟩).insert genesis.hash ⟨genesis, 0, 0, 1, 1, none⟩ }

def sample_long_context (height : ℕ) : ConnectContext :=
  { sample_context with tree := sample_long_tree height, block_hash := BitVec.ofNat 256 (height + 1) }

def sample_mined (height : ℕ) : Transaction :=
  ⟨1, [⟨OutPoint.NULL, [1, 1], 0xffffffff, []⟩], [⟨200 - height, []⟩], 1000 + height⟩

def sample_empty_block (height : ℕ) : Block :=
    ⟨sample_header (BitVec.ofNat 256 height) (height + 1) 0, [sample_mined height]⟩

def sample_mined_coin (height : ℕ) : OutPoint × Coin :=
  (⟨BitVec.ofNat 256 (1000 + height), 0⟩, ⟨⟨200 - height, []⟩, height, true⟩)

theorem sample_mined_step (height : ℕ) :
    tx_step (sample_mined height) height = ⟨[], [sample_mined_coin height]⟩ := rfl

theorem sample_mined_injective {j k : ℕ} (hj : j ≤ 101) (hk : k ≤ 101)
    (h : (sample_mined_coin j).1 = (sample_mined_coin k).1) : j = k := by
  have hid := congrArg (fun op => op.txid.toNat) h
  simp only [sample_mined_coin, BitVec.toNat_ofNat] at hid
  omega

def sample_first_spend : Transaction := ⟨1, [⟨(sample_mined_coin 1).1, [], 0xffffffff, []⟩], [⟨5, []⟩], 7⟩

def sample_second_spend : Transaction := ⟨1, [⟨⟨7, 0⟩, [], 0xffffffff, []⟩], [⟨3, []⟩], 8⟩

def sample_plain_block : Block := ⟨sample_header 101 102 0, [sample_mined 101, sample_first_spend]⟩

def sample_chained_block : Block :=
    ⟨sample_header 101 102 0, [sample_mined 101, sample_first_spend, sample_second_spend]⟩

def sample_mature_set : UtxoSet := UtxoSet.new.put (sample_mined_coin 1).1 (some (sample_mined_coin 1).2)

theorem sample_mines : ∀ k < 102, k ≠ 0 → context_height (sample_long_context k) = k ∧
    enforce_bip30 k (sample_long_context k).block_hash (sample_long_context k) = false ∧
    (connect_block (sample_empty_block k) UtxoSet.new (sample_long_context k)).1 = .ok ⟨[⟨[], []⟩]⟩ := by
  decide +kernel

theorem sample_spends_connect :
    (connect_block sample_plain_block sample_mature_set (sample_long_context 101)).1 =
        .ok ⟨[⟨[], []⟩, ⟨[(sample_mined_coin 1).2], []⟩]⟩ ∧
      (connect_block sample_chained_block sample_mature_set (sample_long_context 101)).1 =
        .ok ⟨[⟨[], []⟩, ⟨[(sample_mined_coin 1).2], []⟩, ⟨[⟨⟨5, []⟩, 101, false⟩], []⟩]⟩ := by
  decide +kernel

variable {s : UtxoSet} {op : OutPoint}

theorem sample_empty_servable {height : ℕ} (hle : height ≤ 100) (hs : s.get (sample_mined_coin height).1 = none) :
    Servable (sample_empty_block height) s where
  own op hop := by cases hop
  fresh op hop := by
    rw [List.mem_singleton.mp hop]
    exact hs
  distinct := List.nodup_singleton _
  coinbase tx htx := by cases htx
  values tx htx out ho := by
    obtain rfl := List.mem_singleton.mp htx
    obtain rfl := List.mem_singleton.mp ho
    change (0 : ℤ) ≤ 200 - height
    omega

def SampleMined (n : ℕ) (s : UtxoSet) : Prop :=
  ∀ op c, s.get op = some c ↔ ∃ k, 1 ≤ k ∧ k ≤ n ∧ (op, c) = sample_mined_coin k

theorem sample_apart {n : ℕ} (hn : n ≤ 100) (hs : SampleMined n s) : Apart sample_byte s := by
  rintro ⟨op, c⟩ ⟨op', c'⟩ ha hb hl
  obtain ⟨k, hk, hkn, ha⟩ := (hs op c).mp ha
  obtain ⟨j, hj, hjn, hb⟩ := (hs op' c').mp hb
  rw [ha, hb] at hl ⊢
  have hv : (leaf_for sample_byte (sample_mined_coin k)).toNat % 256 =
      (leaf_for sample_byte (sample_mined_coin j)).toNat % 256 := by rw [hl]
  rw [sample_leaf, sample_leaf] at hv
  obtain rfl : k = j := by
    simp only [sample_mined_coin] at hv
    omega
  rfl

theorem sample_chain (n : ℕ) (hn : n ≤ 100) : ∃ links s,
    Chain (fun block s => Servable block s ∧ Apart sample_byte s) links s ∧ links.length = n ∧
      SampleMined n s ∧
      ∀ link ∈ links, ∃ k, 1 ≤ k ∧ k ≤ n ∧ link.block = sample_empty_block k ∧ context_height link.ctx = k := by
  induction n with
  | zero =>
    refine ⟨[], UtxoSet.new, .new, rfl, fun op c => ?_, by simp⟩
    rw [new_ok.get_eq]
    constructor
    · intro h
      cases h
    · rintro ⟨k, hk, hkn, -⟩
      omega
  | succ n ih =>
    obtain ⟨links, s, hchain, hlen, hs, hlinks⟩ := ih (by omega)
    obtain ⟨hheight, hscan, hmine⟩ := sample_mines (n + 1) (by omega) (by omega)
    have hfresh : s.get (sample_mined_coin (n + 1)).1 = none := by
      cases hg : s.get (sample_mined_coin (n + 1)).1 with
      | none => rfl
      | some c =>
        obtain ⟨k, -, hkn, he⟩ := (hs _ c).mp hg
        have hkey : (sample_mined_coin (n + 1)).1 = (sample_mined_coin k).1 := (Prod.mk.inj he).1
        have := sample_mined_injective (by omega) (by omega) hkey
        omega
    have hnew : UtxoSet.new.get = fun _ => none := by
      rw [new_ok.get_eq]
      rfl
    have hagree : ∀ op, TouchedBy (context_height (sample_long_context (n + 1)))
        (sample_empty_block (n + 1)).transactions op → UtxoSet.new.get op = s.get op := by
      intro op hop
      rw [hheight] at hop
      obtain ⟨tx, htx, hop⟩ := hop
      rw [List.mem_singleton.mp htx, sample_mined_step] at hop
      rw [hnew]
      rcases hop with hop | hop
      · cases hop
      · rw [List.mem_singleton.mp hop]
        exact hfresh.symm
    have hpass : bip30_scan (sample_empty_block (n + 1)) s (sample_long_context (n + 1))
        (context_height (sample_long_context (n + 1))) = none := by
      rw [bip30_scan, hheight, hscan]
      rfl
    have halone := connect_block_local (t := (connect_block (sample_empty_block (n + 1)) UtxoSet.new
      (sample_long_context (n + 1))).2) new_ok hchain.ok hagree hpass (Prod.ext hmine rfl)
    obtain ⟨t, ht⟩ := halone
    have hview := (connect_block_steps hchain.ok ht).view
    refine ⟨_, t, hchain.connect ⟨sample_empty_servable hn hfresh, sample_apart (by omega) hs⟩
      (hheight.trans (by rw [hlen])) ht,
      by simp [hlen], fun op c => ?_, ?_⟩
    · rw [hview, hheight]
      change Function.update s.get (sample_mined_coin (n + 1)).1 (some (sample_mined_coin (n + 1)).2) op = some c ↔ _
      by_cases he : op = (sample_mined_coin (n + 1)).1
      · rw [he, Function.update_self]
        constructor
        · intro h
          exact ⟨n + 1, by omega, le_refl _, by rw [← Option.some.inj h]⟩
        · rintro ⟨k, hk, hkn, h⟩
          obtain ⟨hkey, hcoin⟩ : (sample_mined_coin (n + 1)).1 = (sample_mined_coin k).1 ∧
            c = (sample_mined_coin k).2 :=
            Prod.mk.inj h
          rw [hcoin, sample_mined_injective (by omega) (by omega) hkey]
      · rw [Function.update_of_ne he, hs op c]
        constructor
        · rintro ⟨k, hk, hkn, h⟩
          exact ⟨k, hk, by omega, h⟩
        · rintro ⟨k, hk, hkn, h⟩
          have hne : k ≠ n + 1 := by
            rintro rfl
            exact he (congrArg Prod.fst h)
          exact ⟨k, hk, by omega, h⟩
    · intro link hl
      rcases List.mem_cons.mp hl with rfl | hl
      · exact ⟨n + 1, by omega, le_refl _, rfl, hheight⟩
      · obtain ⟨k, hk, hkn, h⟩ := hlinks link hl
        exact ⟨k, hk, by omega, h⟩

theorem sample_touched (h : TouchedBy 101 sample_chained_block.transactions op) :
    op = (sample_mined_coin 1).1 ∨ op = (sample_mined_coin 101).1 ∨ op = ⟨7, 0⟩ ∨ op = ⟨8, 0⟩ := by
  have hfirst : tx_step sample_first_spend 101 = ⟨[(sample_mined_coin 1).1], [(⟨7, 0⟩, ⟨⟨5, []⟩, 101, false⟩)]⟩ := rfl
  have hsecond : tx_step sample_second_spend 101 = ⟨[⟨7, 0⟩], [(⟨8, 0⟩, ⟨⟨3, []⟩, 101, false⟩)]⟩ := rfl
  obtain ⟨tx, htx, hop⟩ := h
  simp only [sample_chained_block, List.mem_cons, List.not_mem_nil, or_false] at htx
  rcases htx with rfl | rfl | rfl
  · rw [sample_mined_step] at hop
    simp only [List.not_mem_nil, List.map_cons, List.map_nil, List.mem_singleton, false_or] at hop
    exact .inr (.inl hop)
  · rw [hfirst] at hop
    simp only [List.map_cons, List.map_nil, List.mem_singleton] at hop
    tauto
  · rw [hsecond] at hop
    simp only [List.map_cons, List.map_nil, List.mem_singleton] at hop
    tauto

def SampleUnmined (op : OutPoint) : Prop := ∀ k, 1 ≤ k → k ≤ 100 → op ≠ (sample_mined_coin k).1

theorem sample_unmined (h : op = (sample_mined_coin 101).1 ∨ op = ⟨7, 0⟩ ∨ op = ⟨8, 0⟩) : SampleUnmined op := by
  rintro k hk hk' rfl
  rcases h with h | h | h
  · have := sample_mined_injective (by omega) (by omega) h
    omega
  all_goals
    have hid := congrArg (fun op => op.txid.toNat) h
    simp only [sample_mined_coin, BitVec.ofNat_eq_ofNat, BitVec.toNat_ofNat] at hid
    omega

section

variable (hs : SampleMined 100 s)
include hs

theorem SampleMined.get_none (h : SampleUnmined op) : s.get op = none := by
  cases hc : s.get op with
  | none => rfl
  | some c =>
    obtain ⟨k, hk, hk', he⟩ := (hs op c).mp hc
    exact absurd (Prod.mk.inj he).1 (h k hk hk')

theorem SampleMined.agrees (h : TouchedBy 101 sample_chained_block.transactions op) :
    sample_mature_set.get op = s.get op := by
  have hview : sample_mature_set.get = bundle_view [sample_mined_coin 1] := by
    rw [sample_mature_set, new_ok.get_put, new_ok.get_eq]
    rfl
  rw [hview]
  rcases sample_touched h with rfl | h
  · rw [(hs (sample_mined_coin 1).1 (sample_mined_coin 1).2).mpr ⟨1, le_refl _, by omega, rfl⟩]
    rfl
  have hu := sample_unmined h
  rw [hs.get_none hu]
  cases hc : bundle_view [sample_mined_coin 1] op with
  | none => rfl
  | some c =>
    have hm := List.mem_singleton.mp (mem_of_bundle_view hc)
    exact absurd (Prod.mk.inj hm).1 (hu 1 (le_refl _) (by omega))

theorem SampleMined.connects (hok : Ok s) {block : Block} {undo : BlockUndo}
    (hsub : ∀ tx ∈ block.transactions, tx ∈ sample_chained_block.transactions)
    (hc : (connect_block block sample_mature_set (sample_long_context 101)).1 = .ok undo) :
    ∃ t, connect_block block s (sample_long_context 101) = (.ok undo, t) := by
  obtain ⟨hheight, hscan, -⟩ := sample_mines 101 (by omega) (by omega)
  have hagree : ∀ op, TouchedBy (context_height (sample_long_context 101)) block.transactions op →
      sample_mature_set.get op = s.get op := by
    rintro op ⟨tx, htx, hop⟩
    rw [hheight] at hop
    exact hs.agrees ⟨tx, hsub tx htx, hop⟩
  have hpass : bip30_scan block s (sample_long_context 101) (context_height (sample_long_context 101)) = none := by
    rw [bip30_scan, hheight, hscan]
    rfl
  have hmature : Ok sample_mature_set := new_ok.put _ _
  have hpair : connect_block block sample_mature_set (sample_long_context 101) =
      (.ok undo, (connect_block block sample_mature_set (sample_long_context 101)).2) := Prod.ext hc rfl
  exact connect_block_local hmature hok hagree hpass hpair

theorem sample_plain_servable : Servable sample_plain_block s where
  own := by decide +kernel
  fresh op hop := by
    have hout : bip30_outpoints sample_plain_block = [(sample_mined_coin 101).1, ⟨7, 0⟩] := rfl
    rw [hout] at hop
    apply hs.get_none
    apply sample_unmined
    rcases List.mem_cons.mp hop with h | h
    · exact .inl h
    · exact .inr (.inl (List.mem_singleton.mp h))
  distinct := by decide +kernel
  coinbase := by decide +kernel
  values := by decide +kernel

end

theorem bridge_serves_spend : ∃ links b acc, links.length = 101 ∧
    (links.head?.map Link.block = some sample_plain_block) ∧
    Served leaf_forest leaf_list sample_byte (ProofBridge.spawned leaf_forest []) [] links b acc := by
  obtain ⟨links, s, hchain, hlen, hs, -⟩ := sample_chain 100 (le_refl _)
  obtain ⟨hheight, -⟩ := sample_mines 101 (by omega) (by omega)
  obtain ⟨t, ht⟩ := hs.connects hchain.ok (by decide +kernel) sample_spends_connect.1
  have hlong := hchain.connect ⟨sample_plain_servable hs, sample_apart (le_refl _) hs⟩
    (hheight.trans (by rw [hlen])) ht
  obtain ⟨b, acc, hserved⟩ := bridge_serves leaf_forest_laws rfl [] hlong
  exact ⟨_, b, acc, by simp [hlen], rfl, hserved⟩

/-- The bridge cannot prove a coin that its block makes. -/
theorem bridge_refuses_chained : ¬ ∀ (links : List Link) (s : UtxoSet),
    Chain (fun _ s => Apart sample_byte s) links s → ∃ b acc,
      Served leaf_forest leaf_list sample_byte (ProofBridge.spawned leaf_forest []) [] links b acc := by
  intro h
  obtain ⟨links, s, hchain, hlen, hs, hlinks⟩ := sample_chain 100 (le_refl _)
  obtain ⟨hheight, -⟩ := sample_mines 101 (by omega) (by omega)
  obtain ⟨t, ht⟩ := hs.connects hchain.ok (fun _ htx => htx) sample_spends_connect.2
  have happart := hchain.imp fun _ _ hp => hp.2
  obtain ⟨b, acc, hserved⟩ := h _ t (happart.connect (sample_apart (le_refl _) hs) (hheight.trans (by rw [hlen])) ht)
  cases hserved with
  | step hserved hr _ _ =>
    obtain ⟨forest, hforest, hadded⟩ := served_leaves hserved
    obtain ⟨forest', next, proof, hforest', -, hp, -⟩ := record_eq_ok hr
    obtain rfl : forest = forest' := Option.some.inj (hforest.symm.trans hforest')
    have hlive : leaf_for sample_byte (⟨7, 0⟩, ⟨⟨5, []⟩, 101, false⟩) ∈ forest :=
      (spend_proof_live leaf_forest_laws).mp ⟨proof, hp⟩ _ (List.mem_cons_of_mem _ List.mem_cons_self)
    obtain ⟨link, hl, hx⟩ := hadded _ hlive
    obtain ⟨k, hk, hk', hblock, hctx⟩ := hlinks link hl
    rw [hblock, hctx] at hx
    have hadds : block_adds (sample_empty_block k) k = [sample_mined_coin k] := rfl
    rw [hadds, List.map_singleton, List.mem_singleton] at hx
    have hv : (leaf_for sample_byte (⟨7, 0⟩, ⟨⟨5, []⟩, 101, false⟩)).toNat % 256 =
        (leaf_for sample_byte (sample_mined_coin k)).toNat % 256 := by rw [hx]
    rw [sample_leaf, sample_leaf] at hv
    simp only [sample_mined_coin] at hv
    omega

end Sample

end Utreexo

end AvilaNode
