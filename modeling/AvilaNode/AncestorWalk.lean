import AvilaNode.HeaderLinks

/-! The skip links lead to ancestors, so the walk over them finds the one at the height asked for. -/

namespace AvilaNode

theorem invert_lowest_one_lt {n : ℕ} (h : 0 < n) : invert_lowest_one n < n := by
  have : n &&& (n - 1) ≤ n - 1 := Nat.and_le_right
  unfold invert_lowest_one
  omega

theorem get_skip_height_lt {height : ℕ} (h : 0 < height) : (get_skip_height height).toNat < height := by
  unfold get_skip_height
  split
  · simpa using h
  split
  · rename_i h2 hodd
    have h1 := @invert_lowest_one_lt (height - 1) (by omega)
    have h0 : invert_lowest_one (invert_lowest_one (height - 1)) ≤ invert_lowest_one (height - 1) := Nat.and_le_left
    omega
  · have := invert_lowest_one_lt h
    omega

namespace HeaderTree

section

variable [Platform]

variable {t : HeaderTree} {hash a d : BlockHash} {node : HeaderNode} {height : ℕ} {params : Params}

theorem Linked.get_hash (hl : t.Linked) (hn : t.get hash = some node) : node.hash = hash := by
  have h : t.link hash = some node.link := by rw [link, hn]; rfl
  exact hl.keyed h

theorem Linked.get_parent (hl : t.Linked) (hn : t.get hash = some node) (h0 : node.height ≠ 0) : ∃ parent,
    t.get node.header.prev_block_hash = some parent
      ∧ node.height = parent.height + 1 ∧ t.parent hash = some node.header.prev_block_hash := by
  have h : t.link hash = some node.link := by rw [link, hn]; rfl
  obtain ⟨p, hp, hh⟩ := hl.linked h h0
  obtain ⟨parent, hparent, rfl⟩ := Option.map_eq_some_iff.mp hp
  exact ⟨parent, hparent, hh, parent_eq_some.mpr ⟨_, h, h0, rfl⟩⟩

theorem Below.get (hl : t.Linked) (h : t.Below a d) (hd : t.get d = some node) : ∃ n, t.get a = some n ∧
    n.height ≤ node.height := by
  induction h generalizing node with
  | refl => exact ⟨node, hd, le_rfl⟩
  | tail _ hp ih =>
    obtain ⟨l, hc, h0, rfl⟩ := parent_eq_some.mp hp
    obtain ⟨n, hn, rfl⟩ := Option.map_eq_some_iff.mp hc
    cases hd.symm.trans hn
    obtain ⟨parent, hparent, hh, -⟩ := hl.get_parent hd h0
    obtain ⟨m, hm, hle⟩ := ih hparent
    exact ⟨m, hm, by omega⟩

variable {header : BlockHeader} {parent : HeaderNode} {n m : HeaderNode} {chainwork : ℕ}

theorem Below.unique (hl : t.Linked) {b : BlockHash} (ha : t.Below a d) (hb : t.Below b d) (hn : t.get a = some n)
    (hm : t.get b = some m) (h : n.height = m.height) : a = b := by
  apply Forest.Below.unique (F := hl.forest) ha hb
  change t.height_of a = t.height_of b
  have hla : t.link a = some n.link := by rw [link, hn]; rfl
  have hlb : t.link b = some m.link := by rw [link, hm]; rfl
  rw [height_of_eq hla, height_of_eq hlb]
  exact h

def Skips (t : HeaderTree) : Prop :=
  ∀ {hash l s}, t.link hash = some l → l.skip = some s →
    l.height ≠ 0 ∧ t.Below s hash ∧ ∃ m, t.link s = some m ∧ m.height = (get_skip_height l.height).toNat

theorem descend_step_spec (hl : t.Linked) (hs : t.Skips) (hn : t.get hash = some node) (hlt : height < node.height) :
    ∃ a n, t.descend_step height node = some n ∧ t.get a = some n ∧ t.Below a hash ∧ height ≤ n.height
      ∧ n.height < node.height := by
  have hlink : t.link hash = some node.link := by rw [link, hn]; rfl
  have h0 : node.height ≠ 0 := by omega
  obtain ⟨parent, hparent, hh, hp⟩ := hl.get_parent hn h0
  have hup : ∃ a n, t.get node.header.prev_block_hash = some n ∧ t.get a = some n ∧ t.Below a hash
      ∧ height ≤ n.height ∧ n.height < node.height :=
    ⟨_, parent, hparent, hparent, Relation.ReflTransGen.single hp, by omega, by omega⟩
  unfold descend_step
  split
  · rename_i s hskip
    obtain ⟨sh, hsh, hget⟩ := Option.bind_eq_some_iff.mp hskip
    obtain ⟨-, hbelow, m, hm, hmh⟩ := hs hlink hsh
    have hms : m.height = s.height := by
      rw [link, hget] at hm
      cases hm
      rfl
    have hsk := @get_skip_height_lt node.height (by omega)
    have hmh' : m.height = (get_skip_height node.height).toNat := hmh
    split
    · exact ⟨sh, s, rfl, hget, hbelow, by omega, by omega⟩
    dsimp only
    split
    · rename_i hsafe
      exact ⟨sh, s, rfl, hget, hbelow, by omega, by omega⟩
    · exact hup
  · exact hup

theorem descend_spec (hl : t.Linked) (hs : t.Skips) {fuel : ℕ} (hn : t.get hash = some node)
    (hf : node.height ≤ height + fuel) :
    ∃ a n, t.descend height fuel node = some n ∧ t.get a = some n ∧ t.Below a hash
      ∧ n.height = min height node.height := by
  induction fuel generalizing hash node with
  | zero =>
    rw [descend, if_neg (by omega)]
    exact ⟨hash, node, rfl, hn, Relation.ReflTransGen.refl, by omega⟩
  | succ fuel ih =>
    rw [descend]
    split
    · rename_i hlt
      obtain ⟨a, n, hstep, ha, hb, hge, hdown⟩ := descend_step_spec hl hs hn hlt
      rw [hstep]
      obtain ⟨b, m, hd, hm, hbm, hmh⟩ := ih ha (by omega)
      exact ⟨b, m, hd, hm, hbm.trans hb, by omega⟩
    · exact ⟨hash, node, rfl, hn, Relation.ReflTransGen.refl, by omega⟩

theorem get_ancestor_spec (hl : t.Linked) (hs : t.Skips) (hn : t.get hash = some node) (height : ℕ) :
    ∃ a n, t.get_ancestor hash height = some n ∧ t.get a = some n ∧ t.Below a hash
      ∧ n.height = min height node.height := by
  rw [get_ancestor, hn]
  exact descend_spec hl hs hn (by omega)

theorem get_ancestor_below (hl : t.Linked) (hs : t.Skips) (h : t.Below a d) (ha : t.get a = some n)
    (hd : t.get d = some m) (hh : height ≤ n.height) : t.get_ancestor a height = t.get_ancestor d height := by
  obtain ⟨x, k, hx, hgx, hbx, hkx⟩ := get_ancestor_spec hl hs ha height
  obtain ⟨y, k', hy, hgy, hby, hky⟩ := get_ancestor_spec hl hs hd height
  obtain ⟨n', hn', hle⟩ := h.get hl hd
  cases ha.symm.trans hn'
  have hxy : x = y := Below.unique hl (hbx.trans h) hby hgx hgy (by omega)
  rw [hx, hy, ← hgx, ← hgy, hxy]

theorem Below.with_node (ha : t.Accepts header parent chainwork) (h : t.Below a d) :
    (t.with_node header parent chainwork).Below a d := by
  induction h with
  | refl => exact Relation.ReflTransGen.refl
  | tail _ hp ih =>
    apply ih.tail
    obtain ⟨l, hl, h0, he⟩ := parent_eq_some.mp hp
    exact parent_eq_some.mpr ⟨l, ha.link_old hl, h0, he⟩

omit [Platform] in
theorem Skips.congr {t' : HeaderTree} (hk : t.Skips) (hs : SameLinks t t') : t'.Skips := by
  intro hash l s hlink hskip
  rw [hs.link] at hlink
  obtain ⟨h0, hb, m, hm, hh⟩ := hk hlink hskip
  refine ⟨h0, ?_, m, by rw [hs.link, hm], hh⟩
  unfold Below
  simp only [hs.parent]
  exact hb

theorem Skips.with_node (hk : t.Skips) (hl : t.Linked) (ha : t.Accepts header parent chainwork) :
    (t.with_node header parent chainwork).Skips := by
  intro hash l s hlink hskip
  rw [link_with_node] at hlink
  split at hlink
  · rename_i heq
    cases hlink
    obtain ⟨a, n, hga, hgn, hb, hh⟩ := get_ancestor_spec hl hk ha.parent_known
      (get_skip_height (parent.height + 1)).toNat
    simp only [hga, Option.map_some, Option.some.injEq] at hskip
    rw [hl.get_hash hgn] at hskip
    subst hskip
    have hsk := @get_skip_height_lt (parent.height + 1) (by omega)
    have hp : (t.with_node header parent chainwork).parent hash = some header.prev_block_hash := by
      rw [parent_with_node, if_pos heq]
    have hlink : t.link a = some n.link := by rw [link, hgn]; rfl
    refine ⟨by simp, (hb.with_node ha).tail hp, n.link, ha.link_old hlink, ?_⟩
    change n.height = (get_skip_height (parent.height + 1)).toNat
    omega
  · obtain ⟨h0, hb, m, hm, hh⟩ := hk hlink hskip
    exact ⟨h0, hb.with_node ha, m, ha.link_old hm, hh⟩

theorem Reachable.skips (h : Reachable params t) : t.Linked ∧ t.Skips := by
  refine h.links (P := fun t => t.Linked ∧ t.Skips) ⟨Linked.new params, ?_⟩ ?_ ?_
  · intro hash l s hl hs
    rw [link_new] at hl
    split at hl <;> cases hl
    cases hs
  · rintro t t' hs ⟨hl, hk⟩
    exact ⟨hl.congr hs, Skips.congr hk hs⟩
  · rintro t header parent chainwork ha ⟨hl, hk⟩
    exact ⟨hl.with_node ha, Skips.with_node hk hl ha⟩

theorem Reachable.skip_some (h : Reachable params t) :
    ∀ hash l, t.link hash = some l → l.height ≠ 0 → ∃ s, l.skip = some s := by
  suffices hall : (t.Linked ∧ t.Skips) ∧ ∀ hash l, t.link hash = some l → l.height ≠ 0 → ∃ s, l.skip = some s from
    hall.2
  refine h.links (P := fun t => (t.Linked ∧ t.Skips) ∧ ∀ hash l, t.link hash = some l → l.height ≠ 0 →
    ∃ s, l.skip = some s) ⟨Reachable.new.skips, ?_⟩ ?_ ?_
  · intro hash l hl h0
    rw [link_new] at hl
    split at hl <;> cases hl
    exact absurd rfl h0
  · rintro t t' hs ⟨⟨hl, hk⟩, hsome⟩
    refine ⟨⟨hl.congr hs, Skips.congr hk hs⟩, ?_⟩
    intro hash l hlink h0
    rw [hs.link] at hlink
    exact hsome hash l hlink h0
  · rintro t header parent chainwork ha ⟨⟨hl, hk⟩, hsome⟩
    refine ⟨⟨hl.with_node ha, Skips.with_node hk hl ha⟩, ?_⟩
    intro hash l hlink h0
    rw [link_with_node] at hlink
    split at hlink
    · cases hlink
      obtain ⟨a, n, hga, -⟩ := get_ancestor_spec hl hk ha.parent_known (get_skip_height (parent.height + 1)).toNat
      exact ⟨n.hash, by rw [hga]; rfl⟩
    · exact hsome hash l hlink h0

def parent_walk (t : HeaderTree) : ℕ → HeaderNode → Option HeaderNode
  | 0, node => some node
  | steps + 1, node => (t.get node.header.prev_block_hash).bind (t.parent_walk steps)

theorem Below.parent_walk (hl : t.Linked) (h : t.Below a d) (ha : t.get a = some n) (hd : t.get d = some m) :
    t.parent_walk (m.height - n.height) m = some n := by
  induction h generalizing m with
  | refl =>
    cases ha.symm.trans hd
    rw [Nat.sub_self]
    rfl
  | tail hb hp ih =>
    obtain ⟨l, hlink, h0, rfl⟩ := parent_eq_some.mp hp
    obtain ⟨m', hm', rfl⟩ := Option.map_eq_some_iff.mp hlink
    cases hd.symm.trans hm'
    obtain ⟨parent, hparent, hh, -⟩ := hl.get_parent hd h0
    obtain ⟨n', hn', hle⟩ := Below.get hl hb hparent
    cases ha.symm.trans hn'
    have hsteps : m.height - n.height = (parent.height - n.height) + 1 := by omega
    rw [hsteps, HeaderTree.parent_walk, hparent, Option.bind_some]
    exact ih hparent

theorem get_ancestor_walk (hl : t.Linked) (hs : t.Skips) (hn : t.get hash = some node) (hh : height ≤ node.height) :
    ∃ n, t.get_ancestor hash height = some n ∧ t.parent_walk (node.height - height) node = some n := by
  obtain ⟨a, n, hfound, ha, hb, hnh⟩ := get_ancestor_spec hl hs hn height
  have hwalk := hb.parent_walk hl ha hn
  rw [hnh, min_eq_left hh] at hwalk
  exact ⟨n, hfound, hwalk⟩

/-- The descent over the skip links ends where the walk over the parent links does, and each skip link is such an
ancestor itself. -/
theorem Reachable.skip_descent {params : Params} {t : HeaderTree} (h : Reachable params t) :
    (∀ hash node, t.get hash = some node → ∀ height ≤ node.height, ∃ n, t.get_ancestor hash height = some n ∧
      t.parent_walk (node.height - height) node = some n) ∧
    ∀ hash node, t.get hash = some node → node.height ≠ 0 → ∃ s n, node.skip = some s ∧ t.get s = some n ∧
      (get_skip_height node.height).toNat ≤ node.height ∧
      t.parent_walk (node.height - (get_skip_height node.height).toNat) node = some n := by
  obtain ⟨hl, hs⟩ := h.skips
  refine ⟨fun hash node hn height hh => get_ancestor_walk hl hs hn hh, ?_⟩
  intro hash node hn h0
  have hlink : t.link hash = some node.link := by rw [link, hn]; rfl
  obtain ⟨s, hskip⟩ := h.skip_some _ _ hlink h0
  obtain ⟨-, hb, m, hm, hh⟩ := hs hlink hskip
  obtain ⟨n, hget, rfl⟩ := Option.map_eq_some_iff.mp hm
  have hlt := get_skip_height_lt (Nat.pos_of_ne_zero h0)
  have hwalk := hb.parent_walk hl hget hn
  have hnh : n.height = (get_skip_height node.height).toNat := hh
  rw [hnh] at hwalk
  exact ⟨s, n, hskip, hget, hlt.le, hwalk⟩

end

section

attribute [local instance] Platform.sample

def sample_descent : HeaderTree :=
  ((new sample_params).insert (sample_header 1 2 7) 100).2.insert (sample_header 2 3 7) 100 |>.2

theorem skip_descent_genesis : ∃ node, sample_descent.get 3 = some node ∧
    ∃ n, sample_descent.get_ancestor 3 0 = some n ∧ sample_descent.parent_walk (node.height - 0) node = some n := by
  have hsome : (sample_descent.get 3).isSome := by decide +kernel
  obtain ⟨node, hn⟩ := Option.isSome_iff_exists.mp hsome
  exact ⟨node, hn, (@Reachable.skip_descent _ sample_params _ (.insert _ _ (.insert _ _ .new))).1 3 node hn 0
    (Nat.zero_le _)⟩

end

end HeaderTree

end AvilaNode
