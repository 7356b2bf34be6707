import AvilaNode.NodeEdits
import AvilaNode.PoolGraph

/-! The pool's graph where an identifier stands for one transaction: parents are what children say they are. -/

namespace AvilaNode

open Layers Relation ClosureWalk NodeEdits

/-- What the identifiers of transactions commit to: the number of outputs, and a place over all that is spent. -/
structure Identifiers where
  outputs : Txid → ℕ
  place : Txid → ℕ

variable [Platform]

structure Identifiers.Names (ids : Identifiers) (tx : Transaction) : Prop where
  outputs : tx.outputs.length = ids.outputs (Platform.txid tx)
  place : ∀ input ∈ tx.inputs, ids.place input.previous_output.txid < ids.place (Platform.txid tx)

def Identifiers.Covers (ids : Identifiers) (cs : Chainstate) : Prop :=
  ∀ op, cs.utxo.get op ≠ none → op.vout < ids.outputs op.txid

namespace Mempool

structure Ranked (ids : Identifiers) (m : Mempool) : Prop where
  indexes : Indexes m
  named : ∀ {id : Txid} {entry : MempoolEntry}, m.map.lookup id = some entry → ids.Names entry.tx

structure Lineage (ids : Identifiers) (m : Mempool) : Prop extends Ranked ids m where
  in_range : ∀ {id : Txid} {entry : MempoolEntry}, m.map.lookup id = some entry → ∀ input ∈ entry.tx.inputs,
    input.previous_output.vout < ids.outputs input.previous_output.txid

variable {ids : Identifiers} {m : Mempool}

theorem Ranked.new : Ranked ids Mempool.new where
  indexes := .new
  named h := by cases h

variable {t : Mempool} {a : Txid}

theorem Ranked.same (h : Ranked ids m) (hs : SameTxs m t) : Ranked ids t where
  indexes := h.indexes.same hs
  named he := by
    obtain ⟨entry', he', htx, -⟩ := hs.lookup he
    rw [← htx]
    exact h.named he'

theorem Ranked.shrinks (h : Ranked ids m) (ht : Indexes t) (hs : Shrinks m t) : Ranked ids t where
  indexes := ht
  named he := by
    obtain ⟨entry', he', hbody⟩ := hs.lookup he
    rw [← MempoolEntry.tx_of_body hbody]
    exact h.named he'

theorem Ranked.index (h : Ranked ids m) {entry : MempoolEntry} (named : ids.Names entry.tx)
    (fresh : m.map.lookup (Platform.txid entry.tx) = none)
    (spends : ∀ op ∈ entry.tx.inputs.map TxIn.previous_output, m.spends.lookup op = none)
    (size : entry.size = entry.tx.encode.length) : Ranked ids (m.index (Platform.txid entry.tx) entry) where
  indexes := h.indexes.index rfl fresh spends size
  named {id entry'} hid := by
    change (m.map.insert _ entry).lookup id = _ at hid
    rw [lookup_insert_eq] at hid
    split at hid
    · cases hid
      exact named
    · exact h.named hid

variable {cs : Chainstate} {b : Txid} {tx : Transaction}

theorem Ranked.place_lt (h : Ranked ids m) (hc : m.Child a b) : ids.place a < ids.place b := by
  obtain ⟨entry, he, vout, -, hs⟩ := mem_children.mp hc
  obtain ⟨spender, hspender, hop⟩ := (h.indexes.spends _ _).mp hs
  obtain ⟨input, hinput, heq⟩ := List.mem_map.mp hop
  have hplace := (h.named hspender).place input hinput
  rw [h.indexes.keyed hspender, heq] at hplace
  exact hplace

theorem Ranked.acyclic (h : Ranked ids m) : Acyclic m :=
  fun _ hd => Nat.lt_irrefl _ (lt_of_transGen (fun _ _ hc => h.place_lt hc) hd)

theorem Lineage.new : Lineage ids Mempool.new where
  toRanked := .new
  in_range h := by cases h

section

variable (h : Lineage ids m)
include h

theorem Lineage.same (hs : SameTxs m t) : Lineage ids t where
  toRanked := h.toRanked.same hs
  in_range he := by
    obtain ⟨entry', he', htx, -⟩ := hs.lookup he
    rw [← htx]
    exact h.in_range he'

theorem Lineage.shrinks (ht : Indexes t) (hs : Shrinks m t) : Lineage ids t where
  toRanked := h.toRanked.shrinks ht hs
  in_range he := by
    obtain ⟨entry', he', hbody⟩ := hs.lookup he
    rw [← MempoolEntry.tx_of_body hbody]
    exact h.in_range he'

theorem Lineage.remove_inner (txid : Txid) (cause : RemovalCause) (now height : ℕ) :
    Lineage ids (m.remove_inner txid cause now height) :=
  h.shrinks (h.indexes.remove_inner txid cause now height) (.remove_inner m txid cause now height)

theorem Lineage.feeds_iff
    (hrange : ∀ input ∈ tx.inputs, input.previous_output.vout < ids.outputs input.previous_output.txid) :
    a ∈ m.parents tx ↔ m.Feeds a tx := by
  refine ⟨fun ha => ?_, Feeds.parent⟩
  obtain ⟨⟨input, hinput, rfl⟩, hc⟩ := mem_parents.mp ha
  obtain ⟨entry, he⟩ := Option.isSome_iff_exists.mp hc
  refine ⟨entry, he, input.previous_output.vout, ?_, List.mem_map_of_mem hinput⟩
  rw [(h.named he).outputs, h.indexes.keyed he]
  exact hrange input hinput

theorem Lineage.parent_iff : a ∈ m.parents_of b ↔ m.Child a b := by
  refine ⟨fun ha => ?_, h.indexes.parent_of_child⟩
  obtain ⟨spender, hspender, hp⟩ := mem_parents_of.mp ha
  obtain ⟨entry, he, vout, hv, hop⟩ := (h.feeds_iff (h.in_range hspender)).mp hp
  exact mem_children.mpr ⟨entry, he, vout, hv, (h.indexes.spends _ _).mpr ⟨spender, hspender, hop⟩⟩

theorem Lineage.path_iff {p : Txid} :
    ReflTransGen (Succ m.parents_of) p a ↔ ReflTransGen m.Child a p := by
  constructor
  · exact fun hpath => hpath.swap.lift (fun id => id) fun _ _ hb => h.parent_iff.mp hb
  · exact fun hpath => hpath.swap.lift (fun id => id) fun _ _ hb => h.parent_iff.mpr hb

theorem Lineage.mem_ancestors
    (hrange : ∀ input ∈ tx.inputs, input.previous_output.vout < ids.outputs input.previous_output.txid) :
    a ∈ m.ancestors_of tx ↔ ∃ p, ReflTransGen m.Child a p ∧ m.Feeds p tx := by
  rw [mem_ancestors_of]
  constructor
  · rintro ⟨p, hp, hpath⟩
    exact ⟨p, h.path_iff.mp hpath, (h.feeds_iff hrange).mp hp⟩
  · rintro ⟨p, hpath, hp⟩
    exact ⟨p, hp.parent, h.path_iff.mpr hpath⟩

theorem Lineage.ancestors_iff {id : Txid} {entry : MempoolEntry} (he : m.map.lookup id = some entry) :
    a ∈ m.ancestors_of entry.tx ↔ m.Descends a id := by
  have hparent : ∀ p, p ∈ m.parents entry.tx ↔ m.Child p id := by
    intro p
    rw [← h.parent_iff, mem_parents_of]
    constructor
    · exact fun hp => ⟨entry, he, hp⟩
    · rintro ⟨entry', he', hp⟩
      cases he.symm.trans he'
      exact hp
  rw [mem_ancestors_of, Descends, TransGen.tail'_iff]
  constructor
  · rintro ⟨p, hp, hpath⟩
    exact ⟨p, h.path_iff.mp hpath, (hparent p).mp hp⟩
  · rintro ⟨p, hpath, hp⟩
    exact ⟨p, (hparent p).mpr hp, h.path_iff.mpr hpath⟩

theorem Lineage.unindex_child (ht : Indexes t) (hs : Shrinks m t) {txid : Txid}
    (hgone : ∀ id, t.body id = if id = txid then none else m.body id) :
    t.Child a b ↔ Without m.Child txid a b := by
  have hpooled : ∀ {id}, m.body id ≠ none → id ≠ txid → t.body id ≠ none := by
    intro id hid hne
    rwa [hgone, if_neg hne]
  have hne : ∀ {id}, t.body id ≠ none → id ≠ txid := by
    rintro id hid rfl
    rw [hgone, if_pos rfl] at hid
    exact hid rfl
  constructor
  · intro hc
    exact ⟨hs.child hc, hne (Descends.parent_pooled (.single hc)), hne (ht.child_pooled hc)⟩
  · rintro ⟨hc, ha, hb⟩
    apply child_of_pooled h.indexes ht hs hc
    · exact hpooled (Descends.parent_pooled (.single hc)) ha
    · exact hpooled (h.indexes.child_pooled hc) hb

end

theorem resolve_inputs_some {inputs : List TxIn} {spent : List Coin} (h : m.resolve_inputs cs inputs = some spent) :
    ∀ input ∈ inputs, m.resolve cs input.previous_output ≠ none := by
  induction inputs generalizing spent with
  | nil => exact fun input hinput => absurd hinput List.not_mem_nil
  | cons input inputs ih =>
    rw [resolve_inputs] at h
    split at h
    · cases h
    · next coin hcoin =>
      obtain ⟨rest, hrest, -⟩ := Option.map_eq_some_iff.mp h
      intro input' hinput'
      rcases List.mem_cons.mp hinput' with rfl | hinput'
      · rw [hcoin]
        exact Option.some_ne_none coin
      · exact ih hrest input' hinput'

def HasOutput (m : Mempool) (op : OutPoint) : Prop :=
  ∃ entry, m.map.lookup op.txid = some entry ∧ op.vout < entry.tx.outputs.length

theorem resolve_pooled {op : OutPoint} (hop : m.resolve cs op ≠ none) (hcoin : cs.utxo.get op = none) :
    m.HasOutput op := by
  unfold resolve at hop
  rw [hcoin] at hop
  obtain ⟨coin, hcoin⟩ := Option.ne_none_iff_exists'.mp hop
  obtain ⟨parent, hparent, hout⟩ := Option.bind_eq_some_iff.mp hcoin
  obtain ⟨out, hout, -⟩ := Option.map_eq_some_iff.mp hout
  obtain ⟨hlt, -⟩ := List.getElem?_eq_some_iff.mp hout
  exact ⟨parent, hparent, hlt⟩

theorem Lineage.resolve_in_range (h : Lineage ids m) (hcs : ids.Covers cs) {op : OutPoint}
    (hop : m.resolve cs op ≠ none) : op.vout < ids.outputs op.txid := by
  by_cases hcoin : cs.utxo.get op = none
  · obtain ⟨parent, hparent, hv⟩ := resolve_pooled hop hcoin
    rwa [(h.named hparent).outputs, h.indexes.keyed hparent] at hv
  · exact hcs op hcoin

def Brings (m : Mempool) (tx : Transaction) (d : Txid) : Prop :=
  ∃ vout < tx.outputs.length, ∃ b, m.spends.lookup ⟨Platform.txid tx, vout⟩ = some b ∧ ReflTransGen m.Child b d

structure Entrant (ids : Identifiers) (m : Mempool) (entry : MempoolEntry) : Prop where
  named : ids.Names entry.tx
  in_range : ∀ input ∈ entry.tx.inputs, input.previous_output.vout < ids.outputs input.previous_output.txid
  fresh : m.map.lookup (Platform.txid entry.tx) = none
  spends : ∀ op ∈ entry.tx.inputs.map TxIn.previous_output, m.spends.lookup op = none
  size : entry.size = entry.tx.encode.length

variable {entry : MempoolEntry}

theorem Lineage.index (h : Lineage ids m) (he : Entrant ids m entry) :
    Lineage ids (m.index (Platform.txid entry.tx) entry) where
  toRanked := h.toRanked.index he.named he.fresh he.spends he.size
  in_range {id entry'} hid := by
    change (m.map.insert _ entry).lookup id = _ at hid
    rw [lookup_insert_eq] at hid
    split at hid
    · cases hid
      exact he.in_range
    · exact h.in_range hid

theorem Lineage.attached (h : Lineage ids m) (he : Entrant ids m entry) :
    Attached m.Child (m.index (Platform.txid entry.tx) entry).Child (Platform.txid entry.tx)
      (fun a => m.Feeds a entry.tx)
      (fun b => ∃ vout < entry.tx.outputs.length, m.spends.lookup ⟨Platform.txid entry.tx, vout⟩ = some b) where
  edge a b := by
    apply index_child he.fresh he.spends
    intro input hinput heq
    have hplace := he.named.place input hinput
    rw [heq] at hplace
    exact Nat.lt_irrefl _ hplace
  source b hc := Descends.parent_pooled (.single hc) (body_eq_none.mpr he.fresh)
  sink a hc := h.indexes.child_pooled hc (body_eq_none.mpr he.fresh)
  acyclic := (h.index he).acyclic

theorem Lineage.below_entrant (h : Lineage ids m) (he : Entrant ids m entry) {d : Txid} :
    (m.index (Platform.txid entry.tx) entry).Descends (Platform.txid entry.tx) d ↔ m.Brings entry.tx d := by
  rw [Descends, (h.attached he).below]
  constructor
  · rintro ⟨b, ⟨vout, hv, hs⟩, hpath⟩
    exact ⟨vout, hv, b, hs, hpath⟩
  · rintro ⟨vout, hv, b, hs, hpath⟩
    exact ⟨b, ⟨vout, hv, hs⟩, hpath⟩

theorem Lineage.beside_entrant (h : Lineage ids m) (he : Entrant ids m entry) {d : Txid}
    (ha : a ≠ Platform.txid entry.tx) : (m.index (Platform.txid entry.tx) entry).Descends a d ↔
      m.Descends a d ∨ (a ∈ m.ancestors_of entry.tx ∧ (d = Platform.txid entry.tx ∨ m.Brings entry.tx d)) := by
  rw [Descends, (h.attached he).beside ha, h.mem_ancestors he.in_range, ← (h.attached he).below, ← h.below_entrant he]

end Mempool

end AvilaNode
