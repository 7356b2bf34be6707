import AvilaNode.FailedMarks

/-! Whole runs of changes to a tree: which links they add, and that failed marks stay closed under descent whatever
hash is marked. -/

namespace AvilaNode

open Layers

namespace HeaderTree

variable [Platform]

inductive Change : HeaderTree → HeaderTree → Prop
  | insert (t : HeaderTree) (header : BlockHeader) (now : ℕ) : Change t (t.insert header now).2
  | mark_invalid (t : HeaderTree) (hash : BlockHash) : Change t (t.mark_invalid hash)
  | mark_invalid_subtree (t : HeaderTree) (hash : BlockHash) : Change t (t.mark_invalid_subtree hash)
  | clear_invalid_subtree (t : HeaderTree) (hash : BlockHash) : Change t (t.clear_invalid_subtree hash)
  | restore_tip (t : HeaderTree) (hash : BlockHash) : Change t (t.restore_tip hash).2
  | note_body (t : HeaderTree) (hash : BlockHash) (n_tx : ℕ) : Change t (t.note_body hash n_tx)
  | note_connected (t : HeaderTree) (hash : BlockHash) : Change t (t.note_connected hash)

abbrev Changes : HeaderTree → HeaderTree → Prop := Relation.ReflTransGen Change

variable {t t' : HeaderTree} {hash : BlockHash}

theorem Change.cases (h : Change t t') :
    SameLinks t t' ∨ ∃ header parent chainwork, t.Accepts header parent chainwork ∧
      t' = t.with_node header parent chainwork := by
  cases h with
  | insert header now =>
    rcases insert_cases t header now with ⟨he, -⟩ | ⟨parent, chainwork, ha, he⟩
    · rw [he]
      exact Or.inl (SameLinks.refl t)
    · rw [he]
      exact Or.inr ⟨header, parent, chainwork, ha, rfl⟩
  | mark_invalid hash => exact Or.inl (SameLinks.mark_invalid t hash)
  | mark_invalid_subtree hash => exact Or.inl (SameLinks.mark_invalid_subtree t hash)
  | clear_invalid_subtree hash => exact Or.inl (SameLinks.clear_invalid_subtree t hash)
  | restore_tip hash => exact Or.inl (SameLinks.restore_tip t hash)
  | note_body hash n_tx => exact Or.inl (SameLinks.note_body t hash n_tx)
  | note_connected hash => exact Or.inl (SameLinks.note_connected t hash)

theorem Change.params (h : Change t t') : t'.params = t.params := by
  rcases h.cases with hs | ⟨header, parent, chainwork, -, rfl⟩
  · exact hs.params
  · rfl

theorem Change.linked (h : Change t t') (hl : Linked t) : Linked t' := by
  rcases h.cases with hs | ⟨header, parent, chainwork, ha, rfl⟩
  · exact hl.congr hs
  · exact hl.with_node ha

theorem Change.link (h : Change t t') {l : HeaderLink} (hl : t.link hash = some l) : t'.link hash = some l := by
  rcases h.cases with hs | ⟨header, parent, chainwork, ha, rfl⟩
  · rw [hs.link, hl]
  · exact ha.link_old hl

theorem Changes.params (h : Changes t t') : t'.params = t.params := by
  induction h with
  | refl => rfl
  | tail _ hc ih => rw [hc.params, ih]

theorem Changes.linked (h : Changes t t') (hl : Linked t) : Linked t' := by
  induction h with
  | refl => exact hl
  | tail _ hc ih => exact hc.linked ih

theorem Changes.link (h : Changes t t') {l : HeaderLink} (hl : t.link hash = some l) : t'.link hash = some l := by
  induction h with
  | refl => exact hl
  | tail _ hc ih => exact hc.link ih

theorem Changes.rooted (h : Changes t t') (hr : t'.Rooted) : t.Rooted :=
  hr.of_old h.params fun _ _ hl => h.link hl

def Closed (t : HeaderTree) : Prop := ∀ p c, t.parent c = some p → p ∈ t.invalid → c ∈ t.invalid

omit [Platform] in
theorem Closed.below (h : Closed t) {a d : BlockHash} (hb : t.Below a d) (ha : a ∈ t.invalid) : d ∈ t.invalid := by
  induction hb with
  | refl => exact ha
  | tail _ hp ih => exact h _ _ hp ih

theorem Closed.new (params : Params) : Closed (HeaderTree.new params) := by
  intro p c _ hm
  simp [HeaderTree.new] at hm

omit [Platform] in
theorem Closed.congr (h : Closed t) (hs : SameLinks t t') (hi : t'.invalid = t.invalid) : Closed t' := by
  intro p c hp hm
  rw [hs.parent] at hp
  rw [hi] at hm ⊢
  exact h p c hp hm

theorem Closed.with_node {header : BlockHeader} {parent : HeaderNode} {chainwork : ℕ} (h : Closed t)
    (ha : t.Accepts header parent chainwork) : Closed (t.with_node header parent chainwork) := by
  intro p c hp hm
  rw [parent_with_node] at hp
  split at hp
  · cases hp
    exact absurd hm ha.parent_valid
  · exact h p c hp hm

theorem children_fuel (hl : t.Linked) (hash : BlockHash) :
    hl.forest.weight (t.children_of hash).reverse ≤ t.nodes.entries.length := by
  by_cases hnode : hash ∈ hl.forest.nodes
  · exact children_weight hl hnode
  have hnone : t.children_of hash = [] := by
    rw [List.eq_nil_iff_forall_not_mem]
    intro c hc
    exact hnode (hl.forest.mem_of_parent (hl.indexed.mp hc)).2
  rw [hnone]
  exact Nat.zero_le _

theorem mem_mark_invalid (hl : t.Linked) (hash d : BlockHash) :
    (d ∈ (t.mark_invalid hash).invalid → d ∈ t.invalid ∨ t.Below hash d) ∧
      (Closed t → d ∈ t.invalid ∨ t.Below hash d → d ∈ (t.mark_invalid hash).invalid) ∧
      (Closed t → Closed (t.mark_invalid hash)) := by
  unfold HeaderTree.mark_invalid
  split
  · rename_i hm
    refine ⟨Or.inl, ?_, id⟩
    rintro hc (hd | hb)
    · exact hd
    · exact hc.below hb hm
  · obtain ⟨hsub, hstack, hclosed, hfrom⟩ := mark_walk_spec hl _ (t.children_of hash).reverse
      (Insert.insert hash t.invalid) (children_nodes hl hash) (children_fuel hl hash)
    generalize t.mark_walk t.nodes.entries.length (t.children_of hash).reverse (Insert.insert hash t.invalid) = marks
      at hsub hstack hclosed hfrom ⊢
    have hinv : ∀ tip, (if t.tip ∈ marks then ({ t with invalid := marks, tip } : HeaderTree)
        else { t with invalid := marks }).invalid = marks := by
      intro tip
      split <;> rfl
    have hpre : Closed t → ∀ p c, t.parent c = some p → p ∈ marks → c ∈ marks := by
      intro hc
      apply hclosed
      intro p c hp hi
      rcases Finset.mem_insert.mp hi with rfl | hi
      · exact Or.inr (List.mem_reverse.mpr (hl.indexed.mpr hp))
      · exact Or.inl (Finset.mem_insert_of_mem (hc p c hp hi))
    dsimp only
    rw [hinv]
    refine ⟨?_, ?_, ?_⟩
    · intro hd
      rcases hfrom d hd with hd | ⟨c, hc, hb⟩
      · rcases Finset.mem_insert.mp hd with rfl | hd
        · exact Or.inr Relation.ReflTransGen.refl
        · exact Or.inl hd
      · exact Or.inr (Relation.ReflTransGen.head (hl.indexed.mp (List.mem_reverse.mp hc)) hb)
    · rintro hc (hd | hb)
      · exact hsub (Finset.mem_insert_of_mem hd)
      · have hself : hash ∈ marks := hsub (Finset.mem_insert_self _ _)
        induction hb with
        | refl => exact hself
        | tail _ hp ih => exact hpre hc _ _ hp ih
    · intro hc p c hp hi
      rw [hinv] at hi ⊢
      refine hpre hc p c ?_ hi
      split at hp <;> exact hp

omit [Platform] in
theorem mem_failed_ancestors_self (hm : hash ∈ t.invalid) (fuel : ℕ) :
    hash ∈ t.failed_ancestors (fuel + 1) hash := by
  rw [failed_ancestors, if_pos hm]
  cases t.get hash <;> simp

theorem Linked.prev_height (hl : t.Linked) (hroot : t.Rooted) {l q : HeaderLink} (hh : t.link hash = some l)
    (hq : t.link l.header.prev_block_hash = some q) : l.height = q.height + 1 := by
  by_cases h0 : l.height = 0
  · obtain ⟨lg, hlg, hheader, -, -⟩ := hl.genesis
    rw [← hl.root hh h0, hh] at hlg
    cases hlg
    rw [hheader, HeaderTree.link, hroot] at hq
    cases hq
  · obtain ⟨q', hq', hheight⟩ := hl.linked hh h0
    rw [hq] at hq'
    cases hq'
    exact hheight

theorem failed_ancestors_parent (hl : t.Linked) (hroot : t.Rooted) {fuel : ℕ} {start p c : BlockHash}
    (hf : ∀ l, t.link start = some l → l.height + 1 ≤ fuel) (hp : t.parent c = some p) (hm : p ∈ t.invalid)
    (hc : c ∈ t.failed_ancestors fuel start) : p ∈ t.failed_ancestors fuel start := by
  obtain ⟨l, hlink, hne, rfl⟩ := parent_eq_some.mp hp
  induction fuel generalizing start with
  | zero => cases hc
  | succ fuel ih =>
    have hhere : c ∈ (if start ∈ t.invalid then [start] else []) → c = start := by
      intro hc
      split at hc
      · exact List.mem_singleton.mp hc
      · cases hc
    rw [failed_ancestors] at hc ⊢
    cases hn : t.get start with
    | none =>
      rw [hn] at hc
      obtain rfl := hhere hc
      rw [HeaderTree.link, hn] at hlink
      cases hlink
    | some n =>
      have hstart : t.link start = some n.link := by rw [HeaderTree.link, hn]; rfl
      have hfuel : ∀ q, t.link n.header.prev_block_hash = some q → q.height + 1 ≤ fuel := by
        intro q hq
        have := hl.prev_height hroot hstart hq
        have := hf n.link hstart
        omega
      rw [hn] at hc
      apply List.mem_append_right
      rcases List.mem_append.mp hc with hc | hc
      · obtain rfl := hhere hc
        obtain rfl := Option.some.inj (hstart.symm.trans hlink)
        obtain ⟨q, hq, -⟩ := hl.linked hlink hne
        obtain ⟨k, rfl⟩ : ∃ k, fuel = k + 1 := ⟨fuel - 1, by have := hfuel q hq; omega⟩
        exact mem_failed_ancestors_self hm k
      · exact ih hfuel hc

theorem Closed.clear_invalid_subtree (h : Closed t) (hl : t.Linked) (hroot : t.Rooted) (hash : BlockHash) :
    Closed (t.clear_invalid_subtree hash) := by
  unfold HeaderTree.clear_invalid_subtree
  cases hn : t.get hash with
  | none => exact h
  | some target =>
    have hlink : t.link hash = some target.link := by rw [HeaderTree.link, hn]; rfl
    have hfuel : ∀ q, t.link target.header.prev_block_hash = some q → q.height + 1 ≤ target.height + 1 := by
      intro q hq
      have : target.height = q.height + 1 := hl.prev_height hroot hlink hq
      omega
    have hsub : ∀ a, a ∈ hash :: t.subtree_walk t.nodes.entries.length (t.children_of hash).reverse ↔
        hl.forest.Below hash a := mem_subtree_walk hl (mem_nodes.mpr ⟨_, hlink⟩)
    intro p c hp hleft
    obtain ⟨hmem, hkept⟩ := Finset.mem_filter.mp hleft
    have hm : p ∈ t.invalid := hmem
    refine Finset.mem_filter.mpr ⟨h p c hp hm, fun hc => hkept ?_⟩
    rw [List.mem_append, hsub] at hc ⊢
    rcases hc with hb | hc
    · rcases hb.cases_tail with rfl | ⟨p', hb', hp'⟩
      · right
        obtain ⟨l, hl', -, rfl⟩ := parent_eq_some.mp hp
        obtain rfl := Option.some.inj (hlink.symm.trans hl')
        exact @mem_failed_ancestors_self t target.header.prev_block_hash hm target.height
      · left
        obtain rfl := Option.some.inj ((hp' : t.parent c = some p').symm.trans hp)
        exact hb'
    · exact Or.inr (failed_ancestors_parent hl hroot hfuel hp hm hc)

theorem Change.closed (h : Change t t') (hl : Linked t) (hr : t'.Rooted) (hc : Closed t) : Closed t' := by
  cases h with
  | insert header now =>
    rcases insert_cases t header now with ⟨he, -⟩ | ⟨parent, chainwork, ha, he⟩
    · rw [he]
      exact hc
    · rw [he]
      exact hc.with_node ha
  | mark_invalid hash => exact (mem_mark_invalid hl hash hash).2.2 hc
  | mark_invalid_subtree hash =>
    unfold HeaderTree.mark_invalid_subtree
    split
    · exact (mem_mark_invalid hl hash hash).2.2 hc
    · exact hc
  | clear_invalid_subtree hash =>
    have hr := hr.of_same (SameLinks.clear_invalid_subtree t hash)
    exact hc.clear_invalid_subtree hl hr hash
  | restore_tip hash =>
    refine hc.congr (SameLinks.restore_tip t hash) ?_
    unfold HeaderTree.restore_tip
    split
    · split
      split <;> rfl
    · split
      · rfl
      · split <;> rfl
  | note_body hash n_tx => exact hc.congr (SameLinks.note_body t hash n_tx) (set_node_invalid _ _ _)
  | note_connected hash =>
    refine hc.congr (SameLinks.note_connected t hash) ?_
    unfold HeaderTree.note_connected
    split
    · rfl
    · exact set_node_invalid _ _ _

theorem Changes.closed (h : Changes t t') (hl : Linked t) (hr : t'.Rooted) (hc : Closed t) : Closed t' := by
  induction h with
  | refl => exact hc
  | tail hw h ih =>
    have hr' : HeaderTree.Rooted _ := Changes.rooted (.single h) hr
    exact h.closed (Changes.linked hw hl) hr (ih hr')

omit [Platform] in
theorem tip_mark_invalid (hnew : hash ∉ t.invalid) :
    (t.tip ∉ (t.mark_invalid hash).invalid → (t.mark_invalid hash).tip = t.tip) ∧
      (t.tip ∈ (t.mark_invalid hash).invalid →
        (∃ a l, t.link a = some l ∧ a ∉ (t.mark_invalid hash).invalid ∧ 0 < l.chainwork) →
          (t.mark_invalid hash).BestTip (t.mark_invalid hash).invalid (t.mark_invalid hash).tip) := by
  unfold HeaderTree.mark_invalid
  rw [if_neg hnew]
  dsimp only
  generalize t.mark_walk t.nodes.entries.length (t.children_of hash).reverse (Insert.insert hash t.invalid) = marks
  split
  · rename_i htip
    refine ⟨fun hn => absurd htip hn, fun _ hsome => ?_⟩
    exact (bestTip_elect (t := t) (Or.inl rfl) hsome).2.congr ⟨rfl, fun _ => rfl, fun _ => rfl⟩
  · rename_i htip
    exact ⟨fun _ => rfl, fun hm => absurd hm htip⟩

end HeaderTree

end AvilaNode
