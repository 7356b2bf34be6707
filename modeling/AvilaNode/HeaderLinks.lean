import AvilaNode.Forest
import AvilaNode.HeaderTree

/-! What insertion fixes of a header: its parent, height, work and skip link. Marks and notes leave them alone. -/

namespace AvilaNode

open Layers

structure HeaderLink where
  header : BlockHeader
  height : ℕ
  chainwork : ℕ
  skip : Option BlockHash

def HeaderNode.link (node : HeaderNode) : HeaderLink := ⟨node.header, node.height, node.chainwork, node.skip⟩

namespace HeaderTree

def link (t : HeaderTree) (hash : BlockHash) : Option HeaderLink := (t.get hash).map HeaderNode.link

def parent (t : HeaderTree) (hash : BlockHash) : Option BlockHash :=
  (t.link hash).bind fun l => if l.height = 0 then none else some l.header.prev_block_hash

def Below (t : HeaderTree) (ancestor hash : BlockHash) : Prop :=
  Relation.ReflTransGen (fun p c => t.parent c = some p) ancestor hash

variable {t t' : HeaderTree} {hash : BlockHash} {header : BlockHeader} {chainwork : ℕ} {params : Params}

theorem mem_nodes : hash ∈ t.nodes.keys.toFinset ↔ ∃ l, t.link hash = some l := by
  rw [List.mem_toFinset, ← AList.mem_keys, mem_iff_lookup, link, get]
  cases t.nodes.lookup hash <;> simp

theorem parent_eq_some {c p : BlockHash} :
    t.parent c = some p ↔ ∃ l, t.link c = some l ∧ l.height ≠ 0 ∧ l.header.prev_block_hash = p := by
  unfold parent
  cases t.link c with
  | none => simp
  | some l => by_cases h : l.height = 0 <;> simp [h]

def height_of (t : HeaderTree) (hash : BlockHash) : ℕ := ((t.link hash).map HeaderLink.height).getD 0

theorem height_of_eq {l : HeaderLink} (h : t.link hash = some l) : t.height_of hash = l.height := by
  rw [height_of, h]
  rfl

theorem get_set_node (t : HeaderTree) (hash h : BlockHash) (f : HeaderNode → HeaderNode) :
    (t.set_node hash f).get h = if h = hash then (t.get h).map f else t.get h := by
  unfold set_node
  cases hg : t.get hash with
  | none =>
    dsimp only
    split
    · rename_i heq
      rw [heq, hg]
      rfl
    · rfl
  | some node =>
    dsimp only [get]
    rw [lookup_insert_eq]
    split
    · rename_i heq
      rw [heq]
      exact (congrArg (Option.map f) hg).symm
    · rfl

structure SameLinks (t t' : HeaderTree) : Prop where
  params : t'.params = t.params
  link : ∀ hash, t'.link hash = t.link hash
  children : ∀ hash, t'.children_of hash = t.children_of hash

theorem SameLinks.refl (t : HeaderTree) : SameLinks t t := ⟨rfl, fun _ => rfl, fun _ => rfl⟩

theorem SameLinks.parent (h : SameLinks t t') (hash : BlockHash) : t'.parent hash = t.parent hash := by
  rw [HeaderTree.parent, HeaderTree.parent, h.link]

theorem SameLinks.set_node (t : HeaderTree) (hash : BlockHash) {f : HeaderNode → HeaderNode}
    (hf : ∀ node, (f node).link = node.link) : SameLinks t (t.set_node hash f) where
  params := by unfold HeaderTree.set_node; split <;> rfl
  link h := by
    rw [HeaderTree.link, HeaderTree.link, get_set_node]
    split
    · rw [Option.map_map]
      exact congrFun (congrArg Option.map (funext hf)) _
    · rfl
  children h := by unfold HeaderTree.set_node; split <;> rfl

theorem SameLinks.note_body (t : HeaderTree) (hash : BlockHash) (n_tx : ℕ) : SameLinks t (t.note_body hash n_tx) :=
  SameLinks.set_node t hash fun _ => rfl

theorem SameLinks.note_connected (t : HeaderTree) (hash : BlockHash) : SameLinks t (t.note_connected hash) := by
  unfold HeaderTree.note_connected
  split
  · exact SameLinks.refl t
  · exact SameLinks.set_node t hash fun _ => rfl

theorem SameLinks.mark_invalid (t : HeaderTree) (hash : BlockHash) : SameLinks t (t.mark_invalid hash) := by
  unfold HeaderTree.mark_invalid
  split
  · exact SameLinks.refl t
  · dsimp only
    split <;> exact ⟨rfl, fun _ => rfl, fun _ => rfl⟩

theorem SameLinks.mark_invalid_subtree (t : HeaderTree) (hash : BlockHash) :
    SameLinks t (t.mark_invalid_subtree hash) := by
  unfold HeaderTree.mark_invalid_subtree
  split
  · exact SameLinks.mark_invalid t hash
  · exact SameLinks.refl t

theorem SameLinks.clear_invalid_subtree (t : HeaderTree) (hash : BlockHash) :
    SameLinks t (t.clear_invalid_subtree hash) := by
  unfold HeaderTree.clear_invalid_subtree
  split
  · exact SameLinks.refl t
  · exact ⟨rfl, fun _ => rfl, fun _ => rfl⟩

theorem SameLinks.restore_tip (t : HeaderTree) (hash : BlockHash) : SameLinks t (t.restore_tip hash).2 := by
  unfold HeaderTree.restore_tip
  split
  · split
    split <;> exact ⟨rfl, fun _ => rfl, fun _ => rfl⟩
  · split
    · exact SameLinks.refl t
    · split <;> exact ⟨rfl, fun _ => rfl, fun _ => rfl⟩

def Rooted (t : HeaderTree) : Prop := t.get t.params.genesis_header.prev_block_hash = none

theorem Rooted.of_old (hparams : t'.params = t.params) (hold : ∀ hash l, t.link hash = some l → t'.link hash = some l)
    (h : t'.Rooted) : t.Rooted := by
  unfold Rooted at h ⊢
  rw [hparams] at h
  by_contra hne
  obtain ⟨n, hn⟩ := Option.ne_none_iff_exists'.mp hne
  have := hold _ n.link (by rw [HeaderTree.link, hn]; rfl)
  rw [HeaderTree.link, h] at this
  cases this

theorem Rooted.of_same (hs : SameLinks t t') (h : t'.Rooted) : t.Rooted :=
  h.of_old hs.params fun hash l hl => by rw [hs.link, hl]

variable [Platform]

def genesis (t : HeaderTree) : BlockHash := t.params.genesis_header.hash

def with_node (t : HeaderTree) (header : BlockHeader) (parent : HeaderNode) (chainwork : ℕ) : HeaderTree :=
  { t with
    nodes := t.nodes.insert header.hash
      { header, height := parent.height + 1, chainwork, n_tx := 0, n_chain_tx := 0,
        skip := (t.get_ancestor header.prev_block_hash (get_skip_height (parent.height + 1)).toNat).map
          HeaderNode.hash }
    children := t.children.insert header.prev_block_hash (t.children_of header.prev_block_hash ++ [header.hash])
    tip := if t.tip_work < chainwork then header.hash else t.tip }

structure Accepts (t : HeaderTree) (header : BlockHeader) (parent : HeaderNode) (chainwork : ℕ) : Prop where
  new : t.get header.hash = none
  parent_known : t.get header.prev_block_hash = some parent
  parent_valid : header.prev_block_hash ∉ t.invalid
  work : check_proof_of_work header.hash header.bits t.params = .ok ()
  bits : required_bits parent.height parent.header header.time t.params t.ancestor = .ok header.bits
  time : AvilaNode.median_time_past (t.ancestor_times parent) < header.time
  chainwork_eq : Work.checked_add parent.chainwork (Work.from_compact header.bits) = some chainwork
  height_fits : parent.height + 1 < 2 ^ 32

theorem insert_cases (t : HeaderTree) (header : BlockHeader) (now : ℕ) :
    ((t.insert header now).2 = t ∧ ∀ height, (t.insert header now).1 ≠ .ok (.Added height))
      ∨ ∃ parent chainwork, t.Accepts header parent chainwork
        ∧ t.insert header now = (.ok (.Added (parent.height + 1)), t.with_node header parent chainwork) := by
  unfold insert
  split
  · exact Or.inl ⟨rfl, by simp⟩
  rename_i hnew
  split
  · exact Or.inl ⟨rfl, by simp⟩
  rename_i hwork
  split
  · exact Or.inl ⟨rfl, by simp⟩
  rename_i parent hparent
  split
  · exact Or.inl ⟨rfl, by simp⟩
  rename_i hvalid
  split
  · exact Or.inl ⟨rfl, by simp⟩
  rename_i expected hbits
  split
  · exact Or.inl ⟨rfl, by simp⟩
  rename_i heq
  dsimp only
  split
  · exact Or.inl ⟨rfl, by simp⟩
  rename_i htime
  split
  · exact Or.inl ⟨rfl, by simp⟩
  unfold insert_node
  split
  · exact Or.inl ⟨rfl, by simp⟩
  rename_i chainwork hsum
  split
  · exact Or.inl ⟨rfl, by simp⟩
  rename_i hfits
  refine Or.inr ⟨parent, chainwork, ?_, rfl⟩
  rw [ne_eq, not_not] at heq
  refine ⟨hnew, hparent, hvalid, hwork, heq ▸ hbits, ?_, hsum, by omega⟩
  unfold check_block_time at htime
  split at htime
  · cases htime
  · omega

theorem link_with_node (t : HeaderTree) (header : BlockHeader) (parent : HeaderNode) (chainwork : ℕ)
    (hash : BlockHash) :
    (t.with_node header parent chainwork).link hash = if hash = header.hash then
      some ⟨header, parent.height + 1, chainwork,
        (t.get_ancestor header.prev_block_hash (get_skip_height (parent.height + 1)).toNat).map HeaderNode.hash⟩
      else t.link hash := by
  unfold link get with_node
  rw [lookup_insert_eq]
  split <;> rfl

theorem children_of_with_node (t : HeaderTree) (header : BlockHeader) (parent : HeaderNode) (chainwork : ℕ)
    (hash : BlockHash) : (t.with_node header parent chainwork).children_of hash
      = if hash = header.prev_block_hash then t.children_of hash ++ [header.hash] else t.children_of hash := by
  unfold children_of with_node
  rw [lookup_insert_eq]
  split
  · rename_i h
    rw [h]
    rfl
  · rfl

/-- Every header but the genesis sits one above its parent, under its own hash, and the child lists say so. -/
structure Linked (t : HeaderTree) : Prop where
  genesis : ∃ l, t.link t.genesis = some l ∧ l.header = t.params.genesis_header ∧ l.height = 0
    ∧ l.chainwork = Work.from_compact t.params.genesis_header.bits
  keyed : ∀ {hash l}, t.link hash = some l → l.header.hash = hash
  root : ∀ {hash l}, t.link hash = some l → l.height = 0 → hash = t.genesis
  linked : ∀ {hash l}, t.link hash = some l → l.height ≠ 0 →
    ∃ p, t.link l.header.prev_block_hash = some p ∧ l.height = p.height + 1
  indexed : ∀ {p c}, c ∈ t.children_of p ↔ t.parent c = some p
  children_nodup : ∀ p, (t.children_of p).Nodup

theorem Linked.congr (h : Linked t) (hs : SameLinks t t') : Linked t' := by
  constructor <;> simp only [HeaderTree.genesis, hs.params, hs.link, hs.children, hs.parent]
  · exact h.genesis
  · exact h.keyed
  · exact h.root
  · exact h.linked
  · exact h.indexed
  · exact h.children_nodup

theorem link_new (params : Params) (hash : BlockHash) : (new params).link hash =
    if hash = params.genesis_header.hash then
      some ⟨params.genesis_header, 0, Work.from_compact params.genesis_header.bits, none⟩
    else none := by
  unfold link get new
  rw [lookup_insert_eq]
  split <;> rfl

theorem Linked.new (params : Params) : Linked (new params) := by
  constructor
  · exact ⟨_, by rw [link_new]; exact if_pos rfl, rfl, rfl, rfl⟩
  · intro hash l h
    rw [link_new] at h
    split at h <;> cases h
    rename_i heq
    exact heq.symm
  · intro hash l h _
    rw [link_new] at h
    split at h <;> cases h
    assumption
  · intro hash l h hne
    rw [link_new] at h
    split at h <;> cases h
    exact absurd rfl hne
  · intro p c
    rw [HeaderTree.parent, link_new]
    have hc : (HeaderTree.new params).children_of p = [] := rfl
    rw [hc]
    split <;> simp
  · intro p
    exact List.nodup_nil

variable {parent : HeaderNode} {P : HeaderTree → Prop}

section

variable (ha : t.Accepts header parent chainwork)
include ha

theorem Accepts.link_new : t.link header.hash =
    none := by
  rw [HeaderTree.link, ha.new]
  rfl

theorem Accepts.link_parent :
    t.link header.prev_block_hash = some parent.link := by
  rw [HeaderTree.link, ha.parent_known]
  rfl

theorem Accepts.link_old {l : HeaderLink} (h : t.link hash = some l) :
    (t.with_node header parent chainwork).link hash = some l := by
  rw [link_with_node, if_neg, h]
  rintro rfl
  rw [ha.link_new] at h
  cases h

end

theorem parent_with_node (t : HeaderTree) (header : BlockHeader) (parent : HeaderNode) (chainwork : ℕ)
    (hash : BlockHash) : (t.with_node header parent chainwork).parent hash
      = if hash = header.hash then some header.prev_block_hash else t.parent hash := by
  rw [HeaderTree.parent, HeaderTree.parent, link_with_node]
  split
  · simp
  · rfl

theorem Linked.with_node (h : Linked t) (ha : t.Accepts header parent chainwork) :
    Linked (t.with_node header parent chainwork) := by
  have hnone : t.parent header.hash = none := by rw [HeaderTree.parent, ha.link_new]; rfl
  constructor
  · obtain ⟨l, hl, hrest⟩ := h.genesis
    exact ⟨l, ha.link_old hl, hrest⟩
  · intro hash l hl
    rw [link_with_node] at hl
    split at hl
    · rename_i heq
      cases hl
      exact heq.symm
    · exact h.keyed hl
  · intro hash l hl h0
    rw [link_with_node] at hl
    split at hl
    · cases hl
      simp at h0
    · exact h.root hl h0
  · intro hash l hl hne
    rw [link_with_node] at hl
    split at hl
    · cases hl
      exact ⟨parent.link, ha.link_old ha.link_parent, rfl⟩
    · obtain ⟨p, hp, hh⟩ := h.linked hl hne
      exact ⟨p, ha.link_old hp, hh⟩
  · intro p c
    rw [children_of_with_node, parent_with_node]
    by_cases hp : p = header.prev_block_hash <;> by_cases hc : c = header.hash
    · simp [hp, hc]
    · simp [hp, hc, h.indexed]
    · simp [hp, hc, h.indexed, hnone, eq_comm]
    · simp [hp, hc, h.indexed]
  · intro p
    rw [children_of_with_node]
    split
    · apply (h.children_nodup p).append (List.nodup_singleton _)
      rw [List.disjoint_singleton]
      intro hm
      rw [h.indexed, hnone] at hm
      cases hm
    · exact h.children_nodup p

theorem Rooted.of_with_node (ha : t.Accepts header parent chainwork)
    (h : (t.with_node header parent chainwork).Rooted) : t.Rooted :=
  @Rooted.of_old t (t.with_node header parent chainwork) rfl (fun _ _ hl => ha.link_old hl) h

inductive Reachable (params : Params) : HeaderTree → Prop
  | new : Reachable params (HeaderTree.new params)
  | insert {t : HeaderTree} (header : BlockHeader) (now : ℕ) :
      Reachable params t → Reachable params (t.insert header now).2
  | mark_invalid {t : HeaderTree} (hash : BlockHash) : Reachable params t → t.contains hash →
      hash ≠ params.genesis_header.hash → Reachable params (t.mark_invalid hash)
  | mark_invalid_subtree {t : HeaderTree} (hash : BlockHash) : Reachable params t →
      hash ≠ params.genesis_header.hash → Reachable params (t.mark_invalid_subtree hash)
  | clear_invalid_subtree {t : HeaderTree} (hash : BlockHash) :
      Reachable params t → Reachable params (t.clear_invalid_subtree hash)
  | restore_tip {t : HeaderTree} (hash : BlockHash) :
      Reachable params t → Reachable params (t.restore_tip hash).2
  | note_body {t : HeaderTree} (hash : BlockHash) (n_tx : ℕ) :
      Reachable params t → Reachable params (t.note_body hash n_tx)
  | note_connected {t : HeaderTree} (hash : BlockHash) :
      Reachable params t → Reachable params (t.note_connected hash)

theorem Reachable.links_from (hnew : P (HeaderTree.new params)) (hsame : ∀ {t t'}, SameLinks t t' → P t → P t')
    (hinsert : ∀ {t header parent chainwork}, Reachable params t → t.Accepts header parent chainwork → P t →
      P (t.with_node header parent chainwork)) (h : Reachable params t) : P t := by
  induction h with
  | new => exact hnew
  | @insert t header now hr ih =>
    rcases insert_cases t header now with ⟨he, -⟩ | ⟨parent, chainwork, ha, he⟩
    · rwa [he]
    · rw [he]
      exact hinsert hr ha ih
  | mark_invalid hash _ _ _ ih => exact hsame (SameLinks.mark_invalid _ hash) ih
  | mark_invalid_subtree hash _ _ ih => exact hsame (SameLinks.mark_invalid_subtree _ hash) ih
  | clear_invalid_subtree hash _ ih => exact hsame (SameLinks.clear_invalid_subtree _ hash) ih
  | restore_tip hash _ ih => exact hsame (SameLinks.restore_tip _ hash) ih
  | note_body hash n_tx _ ih => exact hsame (SameLinks.note_body _ hash n_tx) ih
  | note_connected hash _ ih => exact hsame (SameLinks.note_connected _ hash) ih

theorem Reachable.links (hnew : P (HeaderTree.new params)) (hsame : ∀ {t t'}, SameLinks t t' → P t → P t')
    (hinsert : ∀ {t header parent chainwork}, t.Accepts header parent chainwork → P t →
      P (t.with_node header parent chainwork)) (h : Reachable params t) : P t :=
  h.links_from hnew hsame fun _ => hinsert

theorem Reachable.params_eq (h : Reachable params t) : t.params = params :=
  h.links (P := fun t => t.params = params) rfl (fun hs hp => hs.params.trans hp) (fun _ hp => hp)

theorem Reachable.linked (h : Reachable params t) : Linked t :=
  h.links (Linked.new params) (fun hs hl => hl.congr hs) (fun ha hl => hl.with_node ha)

def Linked.forest {t : HeaderTree} (h : Linked t) : Forest BlockHash where
  nodes := t.nodes.keys.toFinset
  parent := t.parent
  height := t.height_of
  children := t.children_of
  mem_of_parent := by
    intro c p hp
    obtain ⟨l, hl, hne, rfl⟩ := parent_eq_some.mp hp
    obtain ⟨q, hq, -⟩ := h.linked hl hne
    exact ⟨mem_nodes.mpr ⟨l, hl⟩, mem_nodes.mpr ⟨q, hq⟩⟩
  height_of_parent := by
    intro c p hp
    obtain ⟨l, hl, hne, rfl⟩ := parent_eq_some.mp hp
    obtain ⟨q, hq, hh⟩ := h.linked hl hne
    rw [height_of_eq hl, height_of_eq hq, hh]
  mem_children := h.indexed
  children_nodup := h.children_nodup

end HeaderTree

end AvilaNode
