import AvilaNode.HeaderLinks

/-! Failed marks are closed under descent, and the tip is a heaviest header without one. -/

namespace AvilaNode

open Layers

namespace HeaderTree

theorem elect_spec (invalid : Finset BlockHash) (best : BlockHash × ℕ) (candidates : List (BlockHash × HeaderNode)) :
    best.2 ≤ (elect invalid best candidates).2
      ∧ (∀ h n, (h, n) ∈ candidates → h ∉ invalid → n.chainwork ≤ (elect invalid best candidates).2)
      ∧ (elect invalid best candidates = best
        ∨ ∃ n, ((elect invalid best candidates).1, n) ∈ candidates ∧ (elect invalid best candidates).1 ∉ invalid
          ∧ (elect invalid best candidates).2 = n.chainwork) := by
  induction candidates generalizing best with
  | nil => simp [elect]
  | cons e candidates ih =>
    obtain ⟨h, n⟩ := e
    rw [elect]
    split
    · rename_i hc
      obtain ⟨hle, hall, hor⟩ := ih (h, n.chainwork)
      refine ⟨hc.2.le.trans hle, ?_, ?_⟩
      · intro h' n' hm hv
        rcases List.mem_cons.mp hm with he | hm
        · cases he
          exact hle
        · exact hall h' n' hm hv
      · right
        rcases hor with he | ⟨m, hm, hv, hw⟩
        · exact ⟨n, by rw [he]; simp, by rw [he]; exact hc.1, by rw [he]⟩
        · exact ⟨m, List.mem_cons_of_mem _ hm, hv, hw⟩
    · rename_i hc
      obtain ⟨hle, hall, hor⟩ := ih best
      refine ⟨hle, ?_, ?_⟩
      · intro h' n' hm hv
        rcases List.mem_cons.mp hm with he | hm
        · cases he
          have : ¬ best.2 < n.chainwork := fun hlt => hc ⟨hv, hlt⟩
          omega
        · exact hall h' n' hm hv
      · rcases hor with he | ⟨m, hm, hv, hw⟩
        · exact Or.inl he
        · exact Or.inr ⟨m, List.mem_cons_of_mem _ hm, hv, hw⟩

def BestTip (t : HeaderTree) (invalid : Finset BlockHash) (tip : BlockHash) : Prop :=
  tip ∉ invalid ∧ ∃ l, t.link tip = some l ∧ ∀ hash m, t.link hash = some m → hash ∉ invalid →
    m.chainwork ≤ l.chainwork

theorem mem_toList_nodes {t : HeaderTree} {hash : BlockHash} {n : HeaderNode} :
    (hash, n) ∈ toList t.nodes ↔ t.get hash = some n := mem_toList

variable {invalid : Finset BlockHash}

theorem bestTip_elect {t : HeaderTree} {best : BlockHash × ℕ}
    (hbest : best.2 = 0 ∨ (best.1 ∉ invalid ∧ ∃ l, t.link best.1 = some l ∧ l.chainwork = best.2))
    (hsome : ∃ hash l, t.link hash = some l ∧ hash ∉ invalid ∧ 0 < l.chainwork) :
    0 < (elect invalid best (toList t.nodes)).2 ∧ t.BestTip invalid (elect invalid best (toList t.nodes)).1 := by
  obtain ⟨-, hall, hor⟩ := elect_spec invalid best (toList t.nodes)
  have hmax : ∀ hash m, t.link hash = some m → hash ∉ invalid →
      m.chainwork ≤ (elect invalid best (toList t.nodes)).2 := by
    intro hash m hm hv
    obtain ⟨n, hn, rfl⟩ := Option.map_eq_some_iff.mp hm
    exact hall hash n (mem_toList_nodes.mpr hn) hv
  obtain ⟨hash, l, hl, hv, hpos⟩ := hsome
  have hw := hpos.trans_le (hmax hash l hl hv)
  refine ⟨hw, ?_⟩
  rcases hor with he | ⟨n, hn, hu, hn'⟩
  · rcases hbest with h0 | ⟨hu, m, hm, hmw⟩
    · rw [he, h0] at hw
      exact absurd hw (lt_irrefl 0)
    · rw [he] at hmax ⊢
      exact ⟨hu, m, hm, fun h' m' hm' hv' => hmw ▸ hmax h' m' hm' hv'⟩
  · refine ⟨hu, n.link, by rw [link, mem_toList_nodes.mp hn]; rfl, ?_⟩
    intro h' m' hm' hv'
    exact (hmax h' m' hm' hv').trans hn'.le

theorem card_nodes (t : HeaderTree) : t.nodes.keys.toFinset.card = t.nodes.entries.length := by
  rw [List.toFinset_card_of_nodup t.nodes.keys_nodup, AList.keys, List.keys, List.length_map]

section

variable [Platform]

variable {t : HeaderTree} {fuel : ℕ} {hash : BlockHash}

section

variable (hl : t.Linked)
include hl

theorem mark_walk_spec (fuel : ℕ) (stack : List BlockHash) (invalid : Finset BlockHash)
    (hs : ∀ h ∈ stack, h ∈ hl.forest.nodes) (hf : hl.forest.weight stack ≤ fuel) :
    invalid ⊆ t.mark_walk fuel stack invalid
      ∧ (∀ h ∈ stack, h ∈ t.mark_walk fuel stack invalid)
      ∧ ((∀ p c, t.parent c = some p → p ∈ invalid → c ∈ invalid ∨ c ∈ stack) →
        ∀ p c, t.parent c = some p → p ∈ t.mark_walk fuel stack invalid → c ∈ t.mark_walk fuel stack invalid)
      ∧ ∀ h ∈ t.mark_walk fuel stack invalid, h ∈ invalid ∨ ∃ a ∈ stack, hl.forest.Below a h := by
  induction fuel generalizing stack invalid with
  | zero =>
    cases stack with
    | nil => simp [mark_walk]
    | cons h stack =>
      have := Forest.weight_push (hs h (by simp)) stack
      omega
  | succ fuel ih =>
    cases stack with
    | nil => simp [mark_walk]
    | cons h stack =>
      have hpush := Forest.weight_push (hs h (by simp)) stack
      have hcons := hl.forest.weight_cons h stack
      rw [mark_walk]
      split
      · rename_i hm
        have hpos : 0 < hl.forest.size h := by
          rw [Forest.size_eq (hs h (by simp))]
          omega
        obtain ⟨hsub, hstack, hclosed, hfrom⟩ :=
          ih stack invalid (fun a ha => hs a (List.mem_cons_of_mem _ ha)) (by omega)
        refine ⟨hsub, ?_, ?_, ?_⟩
        · intro a ha
          rcases List.mem_cons.mp ha with rfl | ha
          · exact hsub hm
          · exact hstack a ha
        · intro hpre
          apply hclosed
          intro p c hp hpi
          rcases hpre p c hp hpi with hc | hc
          · exact Or.inl hc
          · rcases List.mem_cons.mp hc with rfl | hc
            · exact Or.inl hm
            · exact Or.inr hc
        · intro a ha
          rcases hfrom a ha with ha | ⟨b, hb, hba⟩
          · exact Or.inl ha
          · exact Or.inr ⟨b, List.mem_cons_of_mem _ hb, hba⟩
      · have hs' : ∀ a ∈ (t.children_of h).reverse ++ stack, a ∈ hl.forest.nodes := by
          intro a ha
          rcases List.mem_append.mp ha with ha | ha
          · exact (hl.forest.mem_of_parent (hl.indexed.mp (List.mem_reverse.mp ha))).1
          · exact hs a (List.mem_cons_of_mem _ ha)
        have hw : hl.forest.weight ((t.children_of h).reverse ++ stack) ≤ fuel := by
          change hl.forest.weight ((hl.forest.children h).reverse ++ stack) ≤ fuel
          omega
        obtain ⟨hsub, hstack, hclosed, hfrom⟩ := ih _ (Insert.insert h invalid) hs' hw
        refine ⟨(Finset.subset_insert h invalid).trans hsub, ?_, ?_, ?_⟩
        · intro a ha
          rcases List.mem_cons.mp ha with rfl | ha
          · exact hsub (Finset.mem_insert_self _ _)
          · exact hstack a (List.mem_append_right _ ha)
        · intro hpre
          apply hclosed
          intro p c hp hpi
          rcases Finset.mem_insert.mp hpi with rfl | hpi
          · exact Or.inr (List.mem_append_left _ (List.mem_reverse.mpr (hl.indexed.mpr hp)))
          rcases hpre p c hp hpi with hc | hc
          · exact Or.inl (Finset.mem_insert_of_mem hc)
          · rcases List.mem_cons.mp hc with rfl | hc
            · exact Or.inl (Finset.mem_insert_self _ _)
            · exact Or.inr (List.mem_append_right _ hc)
        · intro a ha
          rcases hfrom a ha with ha | ⟨b, hb, hba⟩
          · rcases Finset.mem_insert.mp ha with rfl | ha
            · exact Or.inr ⟨a, by simp, Relation.ReflTransGen.refl⟩
            · exact Or.inl ha
          · rcases List.mem_append.mp hb with hb | hb
            · exact Or.inr ⟨h, by simp, Forest.below_iff_children.mpr (Or.inr ⟨b, List.mem_reverse.mp hb, hba⟩)⟩
            · exact Or.inr ⟨b, List.mem_cons_of_mem _ hb, hba⟩

theorem subtree_walk_spec {stack : List BlockHash} (hs : ∀ h ∈ stack, h ∈ hl.forest.nodes)
    (hf : hl.forest.weight stack ≤ fuel) :
    (∀ h ∈ stack, h ∈ t.subtree_walk fuel stack)
      ∧ (∀ p c, t.parent c = some p → p ∈ t.subtree_walk fuel stack → c ∈ t.subtree_walk fuel stack)
      ∧ ∀ h ∈ t.subtree_walk fuel stack, ∃ a ∈ stack, hl.forest.Below a h := by
  induction fuel generalizing stack with
  | zero =>
    cases stack with
    | nil => simp [subtree_walk]
    | cons h stack =>
      have := Forest.weight_push (hs h (by simp)) stack
      omega
  | succ fuel ih =>
    cases stack with
    | nil => simp [subtree_walk]
    | cons h stack =>
      have hpush := Forest.weight_push (hs h (by simp)) stack
      have hs' : ∀ a ∈ (t.children_of h).reverse ++ stack, a ∈ hl.forest.nodes := by
        intro a ha
        rcases List.mem_append.mp ha with ha | ha
        · exact (hl.forest.mem_of_parent (hl.indexed.mp (List.mem_reverse.mp ha))).1
        · exact hs a (List.mem_cons_of_mem _ ha)
      have hw : hl.forest.weight ((t.children_of h).reverse ++ stack) ≤ fuel := by
        change hl.forest.weight ((hl.forest.children h).reverse ++ stack) ≤ fuel
        omega
      obtain ⟨hstack, hclosed, hfrom⟩ := ih hs' hw
      rw [subtree_walk]
      refine ⟨?_, ?_, ?_⟩
      · intro a ha
        rcases List.mem_cons.mp ha with rfl | ha
        · exact List.mem_cons_self
        · exact List.mem_cons_of_mem _ (hstack a (List.mem_append_right _ ha))
      · intro p c hp hm
        rcases List.mem_cons.mp hm with rfl | hm
        · apply List.mem_cons_of_mem
          apply hstack
          exact List.mem_append_left _ (List.mem_reverse.mpr (hl.indexed.mpr hp))
        · exact List.mem_cons_of_mem _ (hclosed p c hp hm)
      · intro a ha
        rcases List.mem_cons.mp ha with rfl | ha
        · exact ⟨a, by simp, Relation.ReflTransGen.refl⟩
        · obtain ⟨b, hb, hba⟩ := hfrom a ha
          rcases List.mem_append.mp hb with hb | hb
          · exact ⟨h, by simp, Forest.below_iff_children.mpr (Or.inr ⟨b, List.mem_reverse.mp hb, hba⟩)⟩
          · exact ⟨b, List.mem_cons_of_mem _ hb, hba⟩

theorem children_weight (hnode : hash ∈ hl.forest.nodes) :
    hl.forest.weight (t.children_of hash).reverse ≤ t.nodes.entries.length := by
  have hpush := Forest.weight_push hnode ([] : List BlockHash)
  have hcons := hl.forest.weight_cons hash []
  have hsize := hl.forest.size_le hash
  have hcard : hl.forest.nodes.card = t.nodes.entries.length := card_nodes t
  have h0 : hl.forest.weight [] = 0 := rfl
  have hr : (hl.forest.children hash).reverse ++ [] = (t.children_of hash).reverse := List.append_nil _
  rw [hr] at hpush
  omega

theorem children_nodes (hash : BlockHash) :
    ∀ c ∈ (t.children_of hash).reverse, c ∈ hl.forest.nodes := by
  intro c hc
  exact (hl.forest.mem_of_parent (hl.indexed.mp (List.mem_reverse.mp hc))).1

theorem mem_subtree_walk (hnode : hash ∈ hl.forest.nodes) (a : BlockHash) :
    a ∈ hash :: t.subtree_walk t.nodes.entries.length (t.children_of hash).reverse ↔
      hl.forest.Below hash a := by
  obtain ⟨hstack, hclosed, hfrom⟩ := subtree_walk_spec hl (children_nodes hl hash) (children_weight hl hnode)
  rw [List.mem_cons, Forest.below_iff_children]
  apply or_congr eq_comm
  constructor
  · intro ha
    obtain ⟨c, hc, hb⟩ := hfrom a ha
    exact ⟨c, List.mem_reverse.mp hc, hb⟩
  · rintro ⟨c, hc, hb⟩
    induction hb with
    | refl => exact hstack c (List.mem_reverse.mpr hc)
    | tail _ hp ih => exact hclosed _ _ hp ih

theorem failed_ancestors_genesis (hroot : t.Rooted)
    (hknown : ∀ h ∈ t.invalid, ∃ l,
    t.link h = some l) {l : HeaderLink} (hh : t.link hash = some l) (h0 : l.height = 0) (fuel : ℕ) :
    t.failed_ancestors fuel l.header.prev_block_hash = [] := by
  obtain ⟨lg, hlg, hheader, -, -⟩ := hl.genesis
  rw [← hl.root hh h0, hh] at hlg
  cases hlg
  have hprev : t.get l.header.prev_block_hash = none := by
    rw [hheader]
    exact hroot
  cases fuel with
  | zero => rfl
  | succ fuel =>
    rw [failed_ancestors, hprev, if_neg]
    intro hi
    obtain ⟨l', hl'⟩ := hknown _ hi
    rw [link, hprev] at hl'
    cases hl'

theorem failed_ancestors_spec (hroot : t.Rooted) (hknown : ∀ h ∈ t.invalid, ∃ l, t.link h = some l) {l : HeaderLink}
    (hh : t.link hash = some l) (hf : l.height + 1 ≤ fuel) (a : BlockHash) :
    a ∈ t.failed_ancestors fuel hash ↔ a ∈ t.invalid ∧ hl.forest.Below a hash := by
  induction fuel generalizing hash l with
  | zero => omega
  | succ fuel ih =>
    obtain ⟨n, hn, rfl⟩ := Option.map_eq_some_iff.mp hh
    have hhere : ∀ rest : List BlockHash,
        (a ∈ (if hash ∈ t.invalid then [hash] else []) ++ rest) ↔ (a = hash ∧ a ∈ t.invalid) ∨ a ∈ rest := by
      intro rest
      rw [List.mem_append]
      by_cases hi : hash ∈ t.invalid <;> simp only [hi, if_true, if_false, List.mem_singleton, List.not_mem_nil]
      · constructor
        · rintro (rfl | hr)
          · exact Or.inl ⟨rfl, hi⟩
          · exact Or.inr hr
        · rintro (⟨rfl, -⟩ | hr)
          · exact Or.inl rfl
          · exact Or.inr hr
      · constructor
        · rintro (hr | hr)
          · cases hr
          · exact Or.inr hr
        · rintro (⟨rfl, hv⟩ | hr)
          · exact absurd hv hi
          · exact Or.inr hr
    rw [failed_ancestors, hn]
    rw [hhere]
    by_cases h0 : n.height = 0
    · -- the genesis: its parent is neither known nor marked
      have hempty : t.failed_ancestors fuel n.header.prev_block_hash = [] :=
        failed_ancestors_genesis hl hroot hknown hh h0 fuel
      rw [hempty]
      simp only [List.not_mem_nil, or_false]
      constructor
      · rintro ⟨rfl, hv⟩
        exact ⟨hv, Relation.ReflTransGen.refl⟩
      · rintro ⟨hv, hb⟩
        refine ⟨?_, hv⟩
        apply hb.eq_of_height
        change t.height_of hash ≤ _
        rw [height_of_eq hh]
        change n.height ≤ _
        omega
    · have hp : t.parent hash = some n.header.prev_block_hash := parent_eq_some.mpr ⟨n.link, hh, h0, rfl⟩
      obtain ⟨p, hlp, hheight⟩ := hl.linked hh h0
      have hfuel : p.height + 1 ≤ fuel := by omega
      have hih : a ∈ t.failed_ancestors fuel n.header.prev_block_hash ↔
          a ∈ t.invalid ∧ hl.forest.Below a n.header.prev_block_hash := ih hlp hfuel
      have hbelow : hl.forest.Below a hash ↔ a = hash ∨ hl.forest.Below a n.header.prev_block_hash := by
        constructor
        · intro hb
          rcases hb.cases_tail with he | ⟨q, hbq, hq⟩
          · exact Or.inl he.symm
          · have : q = n.header.prev_block_hash := Option.some.inj ((hq : t.parent hash = some q).symm.trans hp)
            exact Or.inr (this ▸ hbq)
        · rintro (rfl | hb)
          · exact Relation.ReflTransGen.refl
          · exact hb.tail hp
      rw [hih, hbelow]
      tauto

end

structure Marked (t : HeaderTree) : Prop where
  known : ∀ h ∈ t.invalid, ∃ l, t.link h = some l
  genesis : t.genesis ∉ t.invalid
  closed : ∀ {p c}, t.parent c = some p → p ∈ t.invalid → c ∈ t.invalid
  best : t.BestTip t.invalid t.tip

omit [Platform] in
@[simp] theorem set_node_invalid (t : HeaderTree) (hash : BlockHash) (f : HeaderNode → HeaderNode) :
    (t.set_node hash f).invalid = t.invalid := by
  unfold set_node
  split <;> rfl

omit [Platform] in
@[simp] theorem set_node_tip (t : HeaderTree) (hash : BlockHash) (f : HeaderNode → HeaderNode) :
    (t.set_node hash f).tip = t.tip := by
  unfold set_node
  split <;> rfl

variable {t' : HeaderTree}

omit [Platform] in
theorem BestTip.congr {tip : BlockHash} (hs : SameLinks t t') (h : t.BestTip invalid tip) :
    t'.BestTip invalid tip := by
  obtain ⟨hv, l, hl, hmax⟩ := h
  exact ⟨hv, l, by rw [hs.link, hl], fun hash m hm => hmax hash m (by rw [← hs.link, hm])⟩

theorem Marked.candidate (hl : t.Linked) (hg : t.genesis ∉ invalid)
    (hwork : 0 < Work.from_compact t.params.genesis_header.bits) :
    ∃ hash l, t.link hash = some l ∧ hash ∉ invalid ∧ 0 < l.chainwork := by
  obtain ⟨l, hlg, -, -, hw⟩ := hl.genesis
  exact ⟨t.genesis, l, hlg, hg, by omega⟩

theorem Marked.new (params : Params) : Marked (HeaderTree.new params) := by
  refine ⟨by simp [HeaderTree.new], by simp [HeaderTree.new], by simp [HeaderTree.new], by simp [HeaderTree.new], ?_⟩
  refine ⟨_, by rw [link_new]; exact if_pos rfl, ?_⟩
  intro hash m hm _
  rw [link_new] at hm
  split at hm <;> cases hm
  exact le_rfl

theorem Marked.congr (h : Marked t) (hs : SameLinks t t') (hi : t'.invalid = t.invalid) (ht : t'.tip = t.tip) :
    Marked t' := by
  refine ⟨?_, ?_, ?_, ?_⟩
  · simpa only [hi, hs.link] using h.known
  · simpa only [hi, HeaderTree.genesis, hs.params] using h.genesis
  · intro p c hp hm
    rw [hs.parent] at hp
    rw [hi] at hm ⊢
    exact h.closed hp hm
  · rw [hi, ht]
    exact h.best.congr hs

theorem Marked.with_node {header : BlockHeader} {parent : HeaderNode} {chainwork : ℕ} (h : Marked t)
    (ha : t.Accepts header parent chainwork) : Marked (t.with_node header parent chainwork) := by
  have hnew : header.hash ∉ t.invalid := by
    intro hi
    obtain ⟨l, hl⟩ := h.known _ hi
    rw [ha.link_new] at hl
    cases hl
  obtain ⟨hv, l, hl, hmax⟩ := h.best
  have htip : t.tip_work = l.chainwork := by
    obtain ⟨n, hn, rfl⟩ := Option.map_eq_some_iff.mp hl
    rw [tip_work, hn]
    rfl
  refine ⟨?_, h.genesis, ?_, ?_⟩
  · intro a hi
    obtain ⟨m, hm⟩ := h.known a hi
    exact ⟨m, ha.link_old hm⟩
  · intro p c hp hi
    rw [parent_with_node] at hp
    split at hp
    · cases hp
      exact absurd hi ha.parent_valid
    · exact h.closed hp hi
  · change BestTip _ t.invalid (if t.tip_work < chainwork then header.hash else t.tip)
    rw [htip]
    split
    · rename_i hlt
      refine ⟨hnew, _, by rw [link_with_node]; exact if_pos rfl, ?_⟩
      intro hash m hm hu
      rw [link_with_node] at hm
      split at hm
      · cases hm
        exact le_rfl
      · exact (hmax hash m hm hu).trans hlt.le
    · rename_i hge
      refine ⟨hv, l, ha.link_old hl, ?_⟩
      intro hash m hm hu
      rw [link_with_node] at hm
      split at hm
      · cases hm
        exact not_lt.mp hge
      · exact hmax hash m hm hu

theorem Marked.mark_invalid (h : Marked t) (hl : t.Linked) (hknown : ∃ l, t.link hash = some l)
    (hne : hash ≠ t.genesis) (hwork : 0 < Work.from_compact t.params.genesis_header.bits) :
    Marked (t.mark_invalid hash) := by
  unfold HeaderTree.mark_invalid
  split
  · exact h
  have hnode : hash ∈ hl.forest.nodes := mem_nodes.mpr hknown
  obtain ⟨hsub, hstack, hclosed, hfrom⟩ := mark_walk_spec hl _ (t.children_of hash).reverse
    (Insert.insert hash t.invalid)
    (children_nodes hl hash) (children_weight hl hnode)
  generalize t.mark_walk t.nodes.entries.length (t.children_of hash).reverse (Insert.insert hash t.invalid) = marks
    at hsub hstack hclosed hfrom ⊢
  have hgenesis : t.genesis ∉ marks := by
    intro hi
    rcases hfrom _ hi with hi | ⟨c, hc, hb⟩
    · rcases Finset.mem_insert.mp hi with he | hi
      · exact hne he.symm
      · exact h.genesis hi
    · obtain ⟨lg, hlg, -, h0, -⟩ := hl.genesis
      have hle := hb.height_le
      rw [hl.forest.height_of_parent (hl.indexed.mp (List.mem_reverse.mp hc))] at hle
      change _ ≤ t.height_of t.genesis at hle
      rw [height_of_eq hlg, h0] at hle
      omega
  have hmarked : ∀ tip, t.BestTip marks tip → Marked { t with invalid := marks, tip } := by
    intro tip hbest
    refine ⟨?_, hgenesis, ?_, hbest.congr ⟨rfl, fun _ => rfl, fun _ => rfl⟩⟩
    · intro a hi
      rcases hfrom a hi with hi | ⟨c, hc, hb⟩
      · rcases Finset.mem_insert.mp hi with rfl | hi
        · exact hknown
        · exact h.known a hi
      · exact mem_nodes.mp (hb.mem (hl.forest.mem_of_parent (hl.indexed.mp (List.mem_reverse.mp hc))).1)
    · intro p c hp hi
      apply hclosed _ p c hp hi
      intro p' c' hp' hi'
      rcases Finset.mem_insert.mp hi' with rfl | hi'
      · exact Or.inr (List.mem_reverse.mpr (hl.indexed.mpr hp'))
      · exact Or.inl (Finset.mem_insert_of_mem (h.closed hp' hi'))
  dsimp only
  split
  · exact hmarked _ (bestTip_elect (Or.inl rfl) (Marked.candidate hl hgenesis hwork)).2
  rename_i htip
  apply hmarked t.tip
  obtain ⟨-, l, hlt, hmax⟩ := h.best
  refine ⟨htip, l, hlt, fun a m hm hu => hmax a m hm fun hi => hu ?_⟩
  exact hsub (Finset.mem_insert_of_mem hi)

theorem Marked.clear_invalid_subtree (h : Marked t) (hl : t.Linked) (hroot : t.Rooted)
    (hwork : 0 < Work.from_compact t.params.genesis_header.bits) (hash : BlockHash) :
    Marked (t.clear_invalid_subtree hash) := by
  unfold HeaderTree.clear_invalid_subtree
  cases hn : t.get hash with
  | none => exact h
  | some target =>
    have hlink : t.link hash = some target.link := by rw [HeaderTree.link, hn]; rfl
    have hnode : hash ∈ hl.forest.nodes := mem_nodes.mpr ⟨_, hlink⟩
    have hanc : ∀ a, a ∈ t.failed_ancestors (target.height + 1) target.header.prev_block_hash ↔
        a ∈ t.invalid ∧ ∃ p, t.parent hash = some p ∧ hl.forest.Below a p := by
      intro a
      by_cases h0 : target.height = 0
      · have hp : t.parent hash = none := by
          rw [HeaderTree.parent, hlink]
          exact if_pos h0
        have hempty : t.failed_ancestors (target.height + 1) target.header.prev_block_hash = [] :=
          failed_ancestors_genesis hl hroot h.known hlink h0 _
        simp [hempty, hp]
      · have hp : t.parent hash = some target.header.prev_block_hash :=
          parent_eq_some.mpr ⟨target.link, hlink, h0, rfl⟩
        obtain ⟨q, hq, hheight⟩ := hl.linked hlink h0
        have hfuel : q.height + 1 ≤ target.height + 1 := by
          have : target.height = q.height + 1 := hheight
          omega
        have hspec : a ∈ t.failed_ancestors (target.height + 1) target.header.prev_block_hash ↔
            a ∈ t.invalid ∧ hl.forest.Below a target.header.prev_block_hash :=
          failed_ancestors_spec hl hroot h.known hq hfuel a
        rw [hspec, hp]
        simp
    have hclear : ∀ a, a ∈ hash :: t.subtree_walk t.nodes.entries.length (t.children_of hash).reverse
        ++ t.failed_ancestors (target.height + 1) target.header.prev_block_hash ↔
          hl.forest.Below hash a ∨ (a ∈ t.invalid ∧ ∃ p, t.parent hash = some p ∧ hl.forest.Below a p) := by
      intro a
      rw [List.mem_append, mem_subtree_walk hl hnode, hanc]
    dsimp only
    generalize hash :: t.subtree_walk t.nodes.entries.length (t.children_of hash).reverse
        ++ t.failed_ancestors (target.height + 1) target.header.prev_block_hash = to_clear at hclear ⊢
    have hgenesis : t.genesis ∉ t.invalid.filter fun a => a ∉ to_clear :=
      fun hi => h.genesis (Finset.mem_filter.mp hi).1
    have hvtip : t.tip ∉ t.invalid.filter fun a => a ∉ to_clear := fun hi => h.best.1 (Finset.mem_filter.mp hi).1
    refine ⟨?_, hgenesis, ?_, ?_⟩
    · intro a hi
      exact h.known a (Finset.mem_filter.mp hi).1
    · intro p c hp hi
      obtain ⟨hpi, hpc⟩ := Finset.mem_filter.mp hi
      apply Finset.mem_filter.mpr
      refine ⟨h.closed hp hpi, ?_⟩
      intro hc
      apply hpc
      rw [hclear] at hc ⊢
      rcases hc with hb | ⟨-, q, hq, hb⟩
      · rcases hb.cases_tail with rfl | ⟨p', hb', hp'⟩
        · exact Or.inr ⟨hpi, p, hp, Relation.ReflTransGen.refl⟩
        · have : p' = p := Option.some.inj ((hp' : t.parent c = some p').symm.trans hp)
          exact Or.inl (this ▸ hb')
      · exact Or.inr ⟨hpi, q, hq, Relation.ReflTransGen.head hp hb⟩
    · rw [if_neg hvtip]
      refine (bestTip_elect (t := t) (Or.inr ⟨hvtip, ?_⟩) (Marked.candidate hl hgenesis hwork)).2.congr
        ⟨rfl, fun _ => rfl, fun _ => rfl⟩
      obtain ⟨-, l, hlt, -⟩ := h.best
      obtain ⟨n, hnt, rfl⟩ := Option.map_eq_some_iff.mp hlt
      refine ⟨n.link, hlt, ?_⟩
      change n.chainwork = ((t.get t.tip).map HeaderNode.chainwork).getD 0
      rw [hnt]
      rfl

theorem Marked.restore_tip (h : Marked t) (hl : t.Linked) (hwork : 0 < Work.from_compact t.params.genesis_header.bits)
    (hash : BlockHash) :
    Marked (t.restore_tip hash).2 := by
  have hmarked : ∀ tip, t.BestTip t.invalid tip → Marked { t with tip } := by
    intro tip hbest
    exact ⟨h.known, h.genesis, h.closed, hbest.congr ⟨rfl, fun _ => rfl, fun _ => rfl⟩⟩
  unfold HeaderTree.restore_tip
  split
  · have hbest := bestTip_elect (t := t) (Or.inl rfl : (t.tip, Work.ZERO).2 = 0 ∨ _)
      (Marked.candidate hl h.genesis hwork)
    split
    rename_i best work he
    rw [he] at hbest
    split
    · exact h
    · exact hmarked best hbest.2
  · rename_i hv
    split
    · exact h
    rename_i node hn
    split
    · exact h
    rename_i hge
    apply hmarked
    obtain ⟨-, l, hlt, hmax⟩ := h.best
    obtain ⟨n, hnt, rfl⟩ := Option.map_eq_some_iff.mp hlt
    have htip : t.tip_work = n.chainwork := by rw [tip_work, hnt]; rfl
    refine ⟨hv, node.link, by rw [HeaderTree.link, hn]; rfl, ?_⟩
    intro a m hm hu
    have := hmax a m hm hu
    change m.chainwork ≤ n.chainwork at this
    change m.chainwork ≤ node.chainwork
    omega

theorem Reachable.marked {params : Params} (h : Reachable params t)
    (hwork : 0 < Work.from_compact params.genesis_header.bits) : t.Rooted → Marked t := by
  have hw : ∀ {t}, Reachable params t → 0 < Work.from_compact t.params.genesis_header.bits := by
    intro t h
    rw [h.params_eq]
    exact hwork
  induction h with
  | new => exact fun _ => Marked.new params
  | @insert t header now h ih =>
    rcases insert_cases t header now with ⟨he, -⟩ | ⟨parent, chainwork, ha, he⟩
    · rwa [he]
    · rw [he]
      exact fun hroot => (ih (Rooted.of_with_node ha hroot)).with_node ha
  | @mark_invalid t hash h hknown hne ih =>
    intro hroot
    obtain ⟨n, hn⟩ := Option.isSome_iff_exists.mp hknown
    refine (ih (hroot.of_same (SameLinks.mark_invalid t hash))).mark_invalid h.linked ⟨n.link, ?_⟩ ?_ (hw h)
    · rw [HeaderTree.link, HeaderTree.get, hn]
      rfl
    · rwa [HeaderTree.genesis, h.params_eq]
  | @mark_invalid_subtree t hash h hne ih =>
    intro hroot
    have hm := ih (hroot.of_same (SameLinks.mark_invalid_subtree t hash))
    unfold HeaderTree.mark_invalid_subtree
    split
    · rename_i hknown
      obtain ⟨n, hn⟩ := Option.isSome_iff_exists.mp hknown
      refine hm.mark_invalid h.linked ⟨n.link, ?_⟩ ?_ (hw h)
      · rw [HeaderTree.link, HeaderTree.get, hn]
        rfl
      · rwa [HeaderTree.genesis, h.params_eq]
    · exact hm
  | @clear_invalid_subtree t hash h ih =>
    intro hroot
    have hr := hroot.of_same (SameLinks.clear_invalid_subtree t hash)
    exact (ih hr).clear_invalid_subtree h.linked hr (hw h) hash
  | @restore_tip t hash h ih =>
    exact fun hroot => (ih (hroot.of_same (SameLinks.restore_tip t hash))).restore_tip h.linked (hw h) hash
  | @note_body t hash n_tx h ih =>
    intro hroot
    have hs := SameLinks.note_body t hash n_tx
    exact (ih (hroot.of_same hs)).congr hs (set_node_invalid _ _ _) (set_node_tip _ _ _)
  | @note_connected t hash h ih =>
    intro hroot
    have hs := SameLinks.note_connected t hash
    refine (ih (hroot.of_same hs)).congr hs ?_ ?_
    · unfold HeaderTree.note_connected
      split
      · rfl
      · exact set_node_invalid _ _ _
    · unfold HeaderTree.note_connected
      split
      · rfl
      · exact set_node_tip _ _ _

theorem Marked.below (h : Marked t) {a d : BlockHash} (hb : t.Below a d) (ha : a ∈ t.invalid) : d ∈ t.invalid := by
  induction hb with
  | refl => exact ha
  | tail _ hp ih => exact h.closed hp ih

theorem mem_chain_down {a : BlockHash} {node : HeaderNode} (hl : t.Linked) (hn : t.get hash = some node)
    (ha : a ∈ t.chain_down fuel node) : t.Below a hash := by
  have hself : ∀ {hash node}, t.get hash = some node → node.hash = hash := by
    intro hash node hn
    have : t.link hash = some node.link := by rw [HeaderTree.link, hn]; rfl
    exact hl.keyed this
  induction fuel generalizing hash node with
  | zero =>
    rw [chain_down, List.mem_singleton, hself hn] at ha
    rw [ha]
    exact Relation.ReflTransGen.refl
  | succ fuel ih =>
    have hhead : a = node.hash → t.Below a hash := by
      intro he
      rw [he, hself hn]
      exact Relation.ReflTransGen.refl
    rw [chain_down] at ha
    split at ha
    · exact hhead (List.mem_singleton.mp ha)
    rename_i h0
    split at ha
    · rename_i parent hp
      rcases List.mem_cons.mp ha with he | ha
      · exact hhead he
      · apply (ih hp ha).tail
        exact parent_eq_some.mpr ⟨node.link, by rw [HeaderTree.link, hn]; rfl, h0, rfl⟩
    · exact hhead (List.mem_singleton.mp ha)

theorem failed_marks_closed {params : Params} {t : HeaderTree} (h : Reachable params t)
    (hwork : 0 < Work.from_compact params.genesis_header.bits)
    (hroot : t.get params.genesis_header.prev_block_hash = none) :
    (∀ hash d, t.is_failed hash = true → t.Below hash d → t.is_failed d = true)
      ∧ (t.is_failed t.tip = false ∧ ∃ node, t.get t.tip = some node ∧
        ∀ hash other, t.get hash = some other → t.is_failed hash = false → other.chainwork ≤ node.chainwork)
      ∧ (∀ header now height, (t.insert header now).1 = .ok (.Added height) →
        ∀ ancestor, t.Below ancestor header.prev_block_hash → t.is_failed ancestor = false)
      ∧ ∀ hash ∈ t.best_chain, t.is_failed hash = false := by
  have hm := h.marked hwork (by rw [Rooted, h.params_eq]; exact hroot)
  simp only [is_failed, decide_eq_true_eq, decide_eq_false_iff_not]
  obtain ⟨hv, l, hlt, hmax⟩ := hm.best
  obtain ⟨node, hn, rfl⟩ := Option.map_eq_some_iff.mp hlt
  refine ⟨fun hash d hi hb => hm.below hb hi, ⟨hv, node, hn, ?_⟩, ?_, ?_⟩
  · intro hash other ho hu
    exact hmax hash other.link (by rw [HeaderTree.link, ho]; rfl) hu
  · intro header now height hadd ancestor hb hi
    rcases insert_cases t header now with ⟨-, hno⟩ | ⟨parent, chainwork, ha, -⟩
    · exact hno height hadd
    · exact ha.parent_valid (hm.below hb hi)
  · intro hash hc hi
    rw [best_chain, hn, List.mem_reverse] at hc
    exact hv (hm.below (mem_chain_down h.linked hn hc) hi)

end

section

attribute [local instance] Platform.sample

def sample_marked : HeaderTree :=
  (((new sample_params).insert (sample_header 1 2 7) 100).2.insert (sample_header 1 3 7) 100).2.mark_invalid 2

theorem failed_marks_closed_sample : (∀ hash d, sample_marked.is_failed hash = true → sample_marked.Below hash d →
      sample_marked.is_failed d = true)
    ∧ (sample_marked.is_failed sample_marked.tip = false ∧ ∃ node, sample_marked.get sample_marked.tip = some node ∧
      ∀ hash other, sample_marked.get hash = some other → sample_marked.is_failed hash = false →
        other.chainwork ≤ node.chainwork)
    ∧ (∀ header now height, (sample_marked.insert header now).1 = .ok (.Added height) →
      ∀ ancestor, sample_marked.Below ancestor header.prev_block_hash → sample_marked.is_failed ancestor = false)
    ∧ ∀ hash ∈ sample_marked.best_chain, sample_marked.is_failed hash = false :=
  @failed_marks_closed _ sample_params sample_marked
    (.mark_invalid _ (.insert _ _ (.insert _ _ .new)) (by decide) (by decide)) (by decide)
    (by decide)

end

end HeaderTree

end AvilaNode
