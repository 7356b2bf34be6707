import AvilaNode.AncestorWalk
import AvilaNode.FailedMarks
import AvilaNode.Strides
import Mathlib.Data.Finset.Max

/-! The locator of the best tip: its ancestors at growing distances, down to the genesis. -/

namespace AvilaNode

open Layers

namespace HeaderTree

open Strides

def locator_gap (i : ℕ) : ℕ := if i < 11 then 1 else 2 ^ (i - 10)

variable (i : ℕ)

theorem locator_gap_pos : 0 < locator_gap i := by
  unfold locator_gap
  split
  · exact one_pos
  · exact Nat.two_pow_pos _

theorem locator_gap_succ : locator_gap (i + 1) = if 10 < i + 1 then locator_gap i * 2 else locator_gap i := by
  unfold locator_gap
  rcases lt_trichotomy i 10 with h | rfl | h
  · rw [if_pos (by omega), if_neg (by omega), if_pos (by omega)]
  · rfl
  · rw [if_neg (by omega), if_pos (by omega), if_neg (by omega), ← pow_succ]
    congr 1
    omega

theorem locator_gap_doubles : locator_gap (i + 1) ≤ 2 * locator_gap i := by
  rw [locator_gap_succ]
  split <;> omega

def Tipped (t : HeaderTree) : Prop := ∃ l, t.link t.tip = some l

variable {t : HeaderTree}

theorem Tipped.congr {t' : HeaderTree} (h : t.Tipped) (hs : SameLinks t t') (ht : t'.tip = t.tip) : t'.Tipped := by
  obtain ⟨l, hl⟩ := h
  exact ⟨l, by rw [ht, hs.link, hl]⟩

theorem Tipped.elect (h : t.Tipped) (invalid : Finset BlockHash) (work : ℕ) :
    ∃ l, t.link (elect invalid (t.tip, work) (toList t.nodes)).1 = some l := by
  obtain ⟨-, -, he | ⟨n, hn, -⟩⟩ := elect_spec invalid (t.tip, work) (toList t.nodes)
  · rw [he]
    exact h
  · exact ⟨n.link, by rw [link, mem_toList_nodes.mp hn]; rfl⟩

theorem Tipped.mark_invalid (h : t.Tipped) (hash : BlockHash) : (t.mark_invalid hash).Tipped := by
  unfold HeaderTree.mark_invalid
  split
  · exact h
  · dsimp only
    split
    · exact h.elect _ _
    · exact h

theorem Tipped.clear_invalid_subtree (h : t.Tipped) (hash : BlockHash) :
    (t.clear_invalid_subtree hash).Tipped := by
  unfold HeaderTree.clear_invalid_subtree
  split
  · exact h
  · dsimp only
    split <;> exact h.elect _ _

theorem Tipped.restore_tip (h : t.Tipped) (hash : BlockHash) : (t.restore_tip hash).2.Tipped := by
  unfold HeaderTree.restore_tip
  split
  · have he := h.elect t.invalid Work.ZERO
    dsimp only
    split
    · exact h
    · exact he
  · split
    · exact h
    · rename_i node hn
      split
      · exact h
      · exact ⟨node.link, congrArg (Option.map HeaderNode.link) hn⟩

section

variable [Platform]

variable {t : HeaderTree} {params : Params}

theorem Tipped.with_node {header : BlockHeader} {parent : HeaderNode} {chainwork : ℕ} (h : t.Tipped)
    (ha : t.Accepts header parent chainwork) : (t.with_node header parent chainwork).Tipped := by
  obtain ⟨l, hl⟩ := h
  change ∃ l, (t.with_node header parent chainwork).link (if t.tip_work < chainwork then header.hash else t.tip) =
    some l
  split
  · exact ⟨_, by rw [link_with_node, if_pos rfl]⟩
  · exact ⟨l, ha.link_old hl⟩

theorem Reachable.tipped (h : Reachable params t) : t.Tipped := by
  induction h with
  | new => exact ⟨_, by rw [link_new]; exact if_pos rfl⟩
  | @insert t header now _ ih =>
    rcases insert_cases t header now with ⟨he, -⟩ | ⟨parent, chainwork, ha, he⟩
    · rwa [he]
    · rw [he]
      exact ih.with_node ha
  | mark_invalid hash _ _ _ ih => exact ih.mark_invalid hash
  | mark_invalid_subtree hash _ _ ih =>
    unfold HeaderTree.mark_invalid_subtree
    split
    · exact ih.mark_invalid hash
    · exact ih
  | clear_invalid_subtree hash _ ih => exact ih.clear_invalid_subtree hash
  | restore_tip hash _ ih => exact ih.restore_tip hash
  | note_body hash n_tx _ ih => exact ih.congr (SameLinks.note_body _ hash n_tx) (set_node_tip _ _ _)
  | note_connected hash _ ih =>
    refine ih.congr (SameLinks.note_connected _ hash) ?_
    unfold HeaderTree.note_connected
    split
    · rfl
    · exact set_node_tip _ _ _

theorem Reachable.heights_fit (h : Reachable params t) : ∀ hash l, t.link hash = some l → l.height < 2 ^ 32 := by
  refine h.links (P := fun t => ∀ hash l, t.link hash = some l → l.height < 2 ^ 32) ?_ ?_ ?_
  · intro hash l hl
    rw [link_new] at hl
    split at hl <;> cases hl
    exact Nat.two_pow_pos 32
  · intro t t' hs ih hash l hl
    rw [hs.link] at hl
    exact ih hash l hl
  · intro t header parent chainwork ha ih hash l hl
    rw [link_with_node] at hl
    split at hl
    · cases hl
      exact ha.height_fits
    · exact ih hash l hl

theorem locator_walk_spec (hl : t.Linked) (hs : t.Skips) (hfit : ∀ hash l, t.link hash = some l → l.height < 2 ^ 32)
    {fuel len : ℕ} {hash : BlockHash} {node : HeaderNode} (hn : t.get hash = some node) :
    List.Forall₂ (fun entry height => t.Below entry hash ∧ t.height_of entry = height)
      (t.locator_walk fuel len (min (locator_gap len) (2 ^ 32 - 1)) node)
      (strides locator_gap fuel len node.height) := by
  have hself : t.Below node.hash hash ∧ t.height_of node.hash = node.height := by
    rw [hl.get_hash hn]
    exact ⟨Relation.ReflTransGen.refl, height_of_eq (by rw [link, hn]; rfl)⟩
  induction fuel generalizing len hash node with
  | zero => exact .cons hself .nil
  | succ fuel ih =>
    rw [locator_walk, strides]
    refine .cons hself ?_
    split
    · exact .nil
    rename_i h0
    rw [hl.get_hash hn]
    obtain ⟨a, n, hga, hgn, hb, hh⟩ := get_ancestor_spec hl hs hn (node.height - min (locator_gap len) (2 ^ 32 - 1))
    have hlt : node.height < 2 ^ 32 := hfit hash node.link (by rw [link, hn]; rfl)
    have hheight : n.height = node.height - locator_gap len := by omega
    have hstep : (if 10 < len + 1 then min (min (locator_gap len) (2 ^ 32 - 1) * 2) (2 ^ 32 - 1)
        else min (locator_gap len) (2 ^ 32 - 1)) = min (locator_gap (len + 1)) (2 ^ 32 - 1) := by
      rw [locator_gap_succ]
      split <;> omega
    have hself' : t.Below n.hash a ∧ t.height_of n.hash = n.height := by
      rw [hl.get_hash hgn]
      exact ⟨Relation.ReflTransGen.refl, height_of_eq (by rw [link, hgn]; rfl)⟩
    rw [hga]
    rw [hstep, ← hheight]
    exact (ih hgn hself').imp fun _ _ he => ⟨he.1.trans hb, he.2⟩

theorem Below.height_le (hl : t.Linked) {a d : BlockHash} (h : t.Below a d) (hd : ∃ l, t.link d = some l) :
    (∃ l, t.link a = some l) ∧ t.height_of a ≤ t.height_of d := by
  obtain ⟨l, hlink⟩ := hd
  obtain ⟨node, hn, rfl⟩ := Option.map_eq_some_iff.mp hlink
  obtain ⟨n, hget, hle⟩ := h.get hl hn
  have ha : t.link a = some n.link := by rw [link, hget]; rfl
  exact ⟨⟨_, ha⟩, by rw [height_of_eq ha, height_of_eq hlink]; exact hle⟩

theorem Below.eq_of_height (hl : t.Linked) {a b d : BlockHash} (ha : t.Below a d) (hb : t.Below b d)
    (h : t.height_of a = t.height_of b) : a = b := Forest.Below.unique (F := hl.forest) ha hb h

theorem Reachable.locator_strides (h : Reachable params t) : (∀ entry ∈ t.locator, t.Below entry t.tip)
      ∧ t.locator.map t.height_of = strides locator_gap (t.height_of t.tip) 0 (t.height_of t.tip) := by
  obtain ⟨hl, hs⟩ := h.skips
  obtain ⟨l, htip⟩ := h.tipped
  obtain ⟨node, hn, rfl⟩ := Option.map_eq_some_iff.mp htip
  have hwalk := @locator_walk_spec _ t hl hs h.heights_fit node.height 0 t.tip node hn
  have hloc : t.locator = t.locator_walk node.height 0 (min (locator_gap 0) (2 ^ 32 - 1)) node := by
    rw [locator, hn]
    rfl
  have hheight : t.height_of t.tip = node.height := height_of_eq htip
  rw [← hloc, ← hheight] at hwalk
  refine ⟨fun entry hentry => ?_, ?_⟩
  · obtain ⟨i, hi, rfl⟩ := List.getElem_of_mem hentry
    exact (hwalk.get hi (by rw [← hwalk.length_eq]; exact hi)).1
  · have heq : List.Forall₂ Eq (t.locator.map t.height_of)
        (strides locator_gap (t.height_of t.tip) 0 (t.height_of t.tip)) :=
      List.forall₂_map_left_iff.mpr (hwalk.imp fun _ _ he => he.2)
    rwa [List.forall₂_eq_eq_eq] at heq

/-- The locator starts at the tip and ends at the genesis. Its first eleven steps are to the parent, then each
is twice as long as the one before, so a chain that leaves the tip's at `fork` has an entry about as far below
`fork` at most as `fork` is below the tip. -/
theorem locator_spec {params : Params} {t : HeaderTree} (h : Reachable params t) :
    (t.locator.head? = some t.tip ∧ t.locator.getLast? = some t.genesis)
      ∧ (∀ entry ∈ t.locator, t.Below entry t.tip)
      ∧ (t.locator.map t.height_of).Pairwise (· > ·)
      ∧ (∀ i entry next, t.locator[i]? = some entry → t.locator[i + 1]? = some next →
          t.height_of next = t.height_of entry - if i < 11 then 1 else 2 ^ (i - 10))
      ∧ ∀ (chain : ℕ → Option BlockHash) (fork : ℕ),
          (∀ height ≤ fork, ∃ hash, chain height = some hash ∧ t.Below hash t.tip ∧ t.height_of hash = height) →
          ∃ entry ∈ t.locator, chain (t.height_of entry) = some entry
            ∧ (∀ other ∈ t.locator, chain (t.height_of other) = some other → t.height_of other ≤ t.height_of entry)
            ∧ (2 * fork ≤ t.height_of entry + t.height_of t.tip + 12 ∨ entry = t.genesis) := by
  have hl := h.linked
  obtain ⟨hbelow, hmap⟩ := h.locator_strides
  have hroot : ∀ entry ∈ t.locator, t.height_of entry = 0 → entry = t.genesis := by
    intro entry hentry h0
    obtain ⟨⟨l, hlink⟩, -⟩ := (hbelow entry hentry).height_le hl h.tipped
    exact hl.root hlink (by rw [← height_of_eq hlink, h0])
  refine ⟨⟨?_, ?_⟩, hbelow, ?_, ?_, ?_⟩
  · have hhead := @strides_head locator_gap (t.height_of t.tip) 0 (t.height_of t.tip)
    rw [← hmap, List.head?_map, Option.map_eq_some_iff] at hhead
    obtain ⟨entry, hentry, hheight⟩ := hhead
    rw [hentry, Below.eq_of_height hl (hbelow entry (List.mem_of_head? hentry)) Relation.ReflTransGen.refl hheight]
  · have hlast := @strides_last _ _ 0 _ locator_gap_pos (le_refl (t.height_of t.tip))
    rw [← hmap, List.getLast?_map, Option.map_eq_some_iff] at hlast
    obtain ⟨entry, hentry, hheight⟩ := hlast
    rw [hentry, hroot entry (List.mem_of_getLast? hentry) hheight]
  · rw [hmap]
    exact strides_descending locator_gap_pos _ _ _
  · intro i entry next hentry hnext
    have hgap := @strides_gap locator_gap (t.height_of t.tip) 0 (t.height_of t.tip) i (t.height_of entry)
      (t.height_of next)
    rw [← hmap, List.getElem?_map, List.getElem?_map, hentry, hnext, Nat.zero_add] at hgap
    exact hgap rfl rfl
  · intro chain fork hshare
    obtain ⟨last, hlast, hbl, hhl⟩ := hshare fork le_rfl
    have hforkle : fork ≤ t.height_of t.tip := by
      rw [← hhl]
      exact (hbl.height_le hl h.tipped).2
    obtain ⟨height, hmem, hle, hmax, hreach⟩ := @strides_reach _ (t.height_of t.tip) 0 (t.height_of t.tip)
      locator_gap_doubles (t.height_of t.tip) fork le_rfl locator_gap_pos (fun _ => le_rfl) (fun _ => by omega)
    rw [← hmap, List.mem_map] at hmem
    obtain ⟨near, hnear, rfl⟩ := hmem
    have hon : chain (t.height_of near) = some near := by
      obtain ⟨hash, hc, hb, hh⟩ := hshare _ hle
      rw [hc, Below.eq_of_height hl hb (hbelow near hnear) hh]
    -- The chain may meet the tip's again above `fork`, so its highest entry is picked and not `near`.
    obtain ⟨entry, hentry, hbest⟩ := (t.locator.toFinset.filter fun entry =>
      chain (t.height_of entry) = some entry).exists_max_image t.height_of
        ⟨near, by rw [Finset.mem_filter, List.mem_toFinset]; exact ⟨hnear, hon⟩⟩
    rw [Finset.mem_filter, List.mem_toFinset] at hentry
    have hbest' : ∀ other ∈ t.locator, chain (t.height_of other) = some other →
        t.height_of other ≤ t.height_of entry := by
      intro other hother hoc
      exact hbest other (by rw [Finset.mem_filter, List.mem_toFinset]; exact ⟨hother, hoc⟩)
    refine ⟨entry, hentry.1, hentry.2, hbest', ?_⟩
    have hge := hbest' near hnear hon
    rcases hreach with hreach | h0
    · exact Or.inl (by omega)
    by_cases hef : t.height_of entry ≤ fork
    · have hentryle : t.height_of entry ≤ t.height_of near := by
        refine hmax _ ?_ hef
        rw [← hmap]
        exact List.mem_map_of_mem hentry.1
      exact Or.inr (hroot entry hentry.1 (by omega))
    · exact Or.inl (by omega)

end

section

attribute [local instance] Platform.sample

def sample_chain : ℕ → HeaderTree
  | 0 => new sample_params
  | n + 1 => (sample_chain n).insert (sample_header (BitVec.ofNat 256 (n + 1)) (n + 2) 7) 100 |>.2

theorem sample_chain_reachable (n : ℕ) : Reachable sample_params (sample_chain n) := by
  induction n with
  | zero => exact .new
  | succ n ih => exact .insert _ _ ih

theorem locator_spec_sample : (sample_chain 2).locator.getLast? = some (sample_chain 2).genesis
    ∧ ((sample_chain 2).locator.map (sample_chain 2).height_of).Pairwise (· > ·) := by
  have hspec := @locator_spec Platform.sample sample_params _ (sample_chain_reachable 2)
  exact ⟨hspec.1.2, hspec.2.2.1⟩

theorem eleventh_step_single : Reachable sample_params (sample_chain 12)
    ∧ ¬ ∀ i entry next, (sample_chain 12).locator[i]? = some entry → (sample_chain 12).locator[i + 1]? = some next →
      (sample_chain 12).height_of next = (sample_chain 12).height_of entry - if i < 10 then 1 else 2 ^ (i - 9) := by
  refine ⟨sample_chain_reachable 12, fun h => ?_⟩
  have h3 : (sample_chain 12).locator[10]? = some 3 := by decide
  have h2 : (sample_chain 12).locator[11]? = some 2 := by decide
  have hne : (sample_chain 12).height_of 2 ≠ (sample_chain 12).height_of 3 - 2 := by decide
  exact hne (h 10 3 2 h3 h2)

end

end HeaderTree

end AvilaNode
