import AvilaNode.BlockSteps
import AvilaNode.MerkleBinding

/-! Connecting a block against an accumulator of coin commitments instead of the coins. -/

namespace AvilaNode

open ByteStrings Layers Ledger UtxoSet

/-- `rustreexo::Stump`: its roots answer for a set of leaves, given proofs. -/
structure Stumps (Stump Proof : Type) where
  verify : Stump → Proof → List Hash256 → Except String Bool
  modify : Stump → List Hash256 → List Hash256 → Proof → Except String Stump

structure Stumps.Laws {Stump Proof : Type} (R : Stumps Stump Proof) (leaves : Stump → Set Hash256) : Prop where
  verify : ∀ acc proof hashes, R.verify acc proof hashes = .ok true → ∀ h ∈ hashes, h ∈ leaves acc
  modify : ∀ acc adds dels proof next, R.modify acc adds dels proof = .ok next →
    leaves next = (leaves acc \ {h | h ∈ dels}) ∪ {h | h ∈ adds}

inductive ProvenConnectError where
  | Proof (e : String)
  | MissingSpend (op : OutPoint)
  | Connect (e : ConnectError)
deriving DecidableEq

inductive Proven where
  | ok (undo : BlockUndo)
  | err (e : ProvenConnectError)
  | panicked
deriving DecidableEq

def outpoint_key (op : OutPoint) : List UInt8 := op.txid.to_bytes ++ (le 4 op.vout).reverse

namespace Utreexo

variable [Platform]

def leaf_hash (key coin : List UInt8) : Hash256 := Platform.sha256d (key ++ coin)

section

-- `encode_coin` of the compact format
variable (encode_coin : Coin → List UInt8)

def leaf_for (e : OutPoint × Coin) : Hash256 := leaf_hash (outpoint_key e.1) (encode_coin e.2)

def leaves_of (coins : OutPoint × Coin → Prop) : Set Hash256 := {h | ∃ e, coins e ∧ leaf_for encode_coin e = h}

variable {Stump Proof : Type} (R : Stumps Stump Proof)

def verify_spend_set (acc : Stump) (spends : List (OutPoint × Coin)) (proof : Proof) : Except String Unit :=
  match R.verify acc proof (spends.map (leaf_for encode_coin)) with
  | .error e => .error ("utreexo verify: " ++ e)
  | .ok true => .ok ()
  | .ok false => .error "utreexo proof rejected"

def apply (acc : Stump) (adds spends : List (OutPoint × Coin)) (proof : Proof) : Except String Stump :=
  match R.modify acc (adds.map (leaf_for encode_coin)) (spends.map (leaf_for encode_coin)) proof with
  | .error e => .error ("utreexo modify: " ++ e)
  | .ok next => .ok next

def missing_spend (block : Block) (spends : List (OutPoint × Coin)) : Option OutPoint :=
  ((block.transactions.drop 1).flatMap fun tx => tx.inputs.map TxIn.previous_output).find? fun op =>
    !(spends.map Prod.fst).contains op

def seed_overlay : List (OutPoint × Coin) → UtxoSet → UtxoSet
  | [], overlay => overlay
  | (op, c) :: spends, overlay => seed_overlay spends (overlay.insert_synthetic op c)

def proven_adds (block : Block) (overlay : UtxoSet) : List (OutPoint × Coin) :=
  block.transactions.flatMap fun tx => tx.outputs.zipIdx.filterMap fun (out, vout) =>
    if out.value < 0 then none else (overlay.get ⟨tx.txid, vout⟩).map fun c => (⟨tx.txid, vout⟩, c)

def connect_block_proven (block : Block) (acc : Stump) (spends : List (OutPoint × Coin)) (proof : Proof)
    (ctx : ConnectContext) : Proven × Stump :=
  match verify_spend_set encode_coin R acc spends proof with
  | .error e => (.err (.Proof e), acc)
  | .ok () =>
    match missing_spend block spends with
    | some op => (.err (.MissingSpend op), acc)
    | none =>
      match connect_block block (seed_overlay spends UtxoSet.new) ctx with
      | (.panicked, _) => (.panicked, acc)
      | (.err e, _) => (.err (.Connect e), acc)
      | (.ok undo, overlay) =>
        match apply encode_coin R acc (proven_adds block overlay) spends proof with
        | .error e => (.err (.Proof e), acc)
        | .ok next => (.ok undo, next)

end

def bundle_view (spends : List (OutPoint × Coin)) : View OutPoint Coin := writeAll (fun _ => none) (puts spends)

theorem seed_overlay_view (spends : List (OutPoint × Coin)) :
    Ok (seed_overlay spends UtxoSet.new) ∧ (seed_overlay spends UtxoSet.new).get = bundle_view spends := by
  have hput : ∀ (es : List (OutPoint × Coin)) (s : UtxoSet), seed_overlay es s = put_coins es s := by
    intro es
    induction es with
    | nil => exact fun _ => rfl
    | cons e es ih => exact fun s => ih _
  have hnew : UtxoSet.new.get = fun _ => none := by
    rw [new_ok.get_eq]
    rfl
  obtain ⟨hok, hg⟩ := put_coins_view spends new_ok
  rw [hput, hg, hnew]
  exact ⟨hok, rfl⟩

variable {spends : List (OutPoint × Coin)}

omit [Platform] in
theorem mem_of_bundle_view {op : OutPoint} {c : Coin} (h : bundle_view spends op = some c) : (op, c) ∈ spends := by
  by_contra hn
  have hall : ∀ (es : List (OutPoint × Coin)) (v : View OutPoint Coin),
      writeAll v (puts es) op = some c → (op, c) ∈ es ∨ v op = some c := by
    intro es
    induction es with
    | nil => exact fun v hv => .inr hv
    | cons e es ih =>
      intro v hv
      rcases ih _ hv with hm | hv
      · exact .inl (List.mem_cons_of_mem _ hm)
      by_cases he : op = e.1
      · rw [he, Function.update_self] at hv
        obtain rfl := Option.some.inj hv
        exact .inl (he ▸ List.mem_cons_self)
      · rw [Function.update_of_ne he] at hv
        exact .inr hv
  rcases hall spends _ h with hm | hv
  · exact hn hm
  · cases hv

omit [Platform] in
theorem bundle_view_of_mem {v : View OutPoint Coin} (hv : ∀ e ∈ spends, v e.1 = some e.2) {e : OutPoint × Coin}
    (he : e ∈ spends) : bundle_view spends e.1 =
      some e.2 := by
  apply writeAll_of_mem (mem_puts.mpr ⟨e.2, he, rfl⟩)
  intro x hx
  obtain ⟨c, hc, rfl⟩ := mem_puts.mp hx
  exact (hv _ hc).symm.trans (hv e he)

def Counted (block : Block) (op : OutPoint) : Prop :=
  ∃ tx ∈ block.transactions, tx.txid = op.txid ∧ ∃ out, tx.outputs[op.vout]? = some out ∧ 0 ≤ out.value

theorem mem_proven_adds {block : Block} {overlay : UtxoSet} {op : OutPoint} {c : Coin} :
    (op, c) ∈ proven_adds block overlay ↔ Counted block op ∧ overlay.get op = some c := by
  simp only [proven_adds, List.mem_flatMap, List.mem_filterMap, Prod.exists, List.mk_mem_zipIdx_iff_getElem?]
  constructor
  · rintro ⟨tx, htx, out, vout, hv, he⟩
    split at he
    · cases he
    · obtain ⟨d, hd, he⟩ := Option.map_eq_some_iff.mp he
      obtain ⟨rfl, rfl⟩ := Prod.mk.inj he
      exact ⟨⟨tx, htx, rfl, out, hv, by omega⟩, hd⟩
  · rintro ⟨⟨tx, htx, ht, out, hv, hn⟩, hc⟩
    refine ⟨tx, htx, out, op.vout, hv, ?_⟩
    rw [if_neg (by omega), ht, hc]
    rfl

end Utreexo

end AvilaNode
