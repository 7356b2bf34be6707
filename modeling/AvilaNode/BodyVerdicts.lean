import AvilaNode.BodyBinding
import AvilaNode.FailedReorg

/-! What a failed mark says of the bodies under the marked hash: the node refused the only one there can be. -/

namespace AvilaNode

open Layers

section

variable [Platform] {block block' : Block} {ctx : BlockContext}

def locktime_cutoff (header : BlockHeader) (ctx : BlockContext) : Option ℕ :=
  if ctx.params.csv_height ≤ ctx.height then ctx.parent_median_time_past else some header.time

def coinbase_script_sig (block : Block) : Script :=
  ((block.transactions.head?.bind fun coinbase => coinbase.inputs.head?).map TxIn.script_sig).getD []

def InContext (block : Block) (ctx : BlockContext) (cutoff : ℕ) : Prop :=
  (∀ tx ∈ block.transactions, is_final_tx tx ctx.height cutoff = true) ∧
    (ctx.params.bip34_height ≤ ctx.height → (push_int ctx.height).isPrefixOf (coinbase_script_sig block) = true)

theorem contextual_check_block_ok (h : contextual_check_block block ctx = .ok ()) :
    (∃ cutoff, locktime_cutoff block.header ctx = some cutoff ∧ InContext block ctx cutoff) ∧
      check_witness block ctx = .ok () ∧ block.weight ≤ MAX_BLOCK_WEIGHT := by
  unfold contextual_check_block at h
  dsimp only at h
  split at h
  · cases h
  rename_i cutoff hcutoff
  split at h
  · cases h
  rename_i hfinal
  split at h
  · cases h
  rename_i hheight
  split at h
  · cases h
  rename_i hwitness
  split at h
  · cases h
  rename_i hweight
  refine ⟨⟨cutoff, hcutoff, by simpa using hfinal, ?_⟩, hwitness, not_lt.mp hweight⟩
  intro hactive
  by_contra hn
  exact hheight ⟨hactive, hn⟩

variable {e : ContextualBlockError}

theorem check_witness_error (h : check_witness block ctx = .error e) :
    Chainstate.ContextualBlockError.marks e = false := by
  unfold check_witness at h
  dsimp only at h
  split at h
  · split at h
    · cases h
      rfl
    · split at h
      · cases h
        rfl
      · cases h
  · split at h
    · cases h
      rfl
    · cases h

theorem contextual_check_block_marks (h : contextual_check_block block ctx = .error e)
    (hm : Chainstate.ContextualBlockError.marks e = true) :
    (∃ cutoff, locktime_cutoff block.header ctx = some cutoff ∧ ¬ InContext block ctx cutoff) ∨
      (check_witness block ctx = .ok () ∧ MAX_BLOCK_WEIGHT < block.weight) := by
  unfold contextual_check_block at h
  dsimp only at h
  split at h
  · cases h
    cases hm
  rename_i cutoff hcutoff
  split at h
  · rename_i hfinal
    refine Or.inl ⟨cutoff, hcutoff, fun hc => ?_⟩
    obtain ⟨tx, ht, hn⟩ := List.any_eq_true.mp hfinal
    rw [hc.1 tx ht] at hn
    cases hn
  · split at h
    · rename_i hheight
      exact Or.inl ⟨cutoff, hcutoff, fun hc => hheight.2 (hc.2 hheight.1)⟩
    split at h
    · rename_i e' hwitness
      cases h
      rw [check_witness_error hwitness] at hm
      cases hm
    · rename_i hwitness
      split at h
      · rename_i hweight
        exact Or.inr ⟨hwitness, hweight⟩
      · cases h

omit [Platform] in
theorem inContext_stripped {cutoff : ℕ} : InContext block.stripped ctx cutoff ↔ InContext block ctx cutoff := by
  have hscript : coinbase_script_sig block.stripped = coinbase_script_sig block := by
    rw [coinbase_script_sig, coinbase_script_sig, Block.script_sig_stripped]
  unfold InContext
  rw [hscript]
  simp [Block.stripped, Transaction.is_final_stripped]

variable [Serialized]

theorem header_eq (free : block.CollisionFree block') (ht : block.Typed) (ht' : block'.Typed)
    (h : block'.block_hash = block.block_hash) : block.header = block'.header := by
  apply BlockHeader.encode_inj ht.header ht'.header
  apply free.inj
  · exact hashed_left (by simp [Block.hashed])
  · exact hashed_right (by simp [Block.hashed])
  · rw [← Serialized.block_hash, ← Serialized.block_hash]
    exact h.symm

theorem body_unique (free : block.CollisionFree block') (hheader : block.header = block'.header) (ht : block.Typed)
    (ht' : block'.Typed) (hc : check_block block ctx.params = .ok ()) (hc' : check_block block' ctx.params = .ok ())
    (hx : contextual_check_block block ctx = .ok ()) (hx' : contextual_check_block block' ctx = .ok ()) :
    block = block' := by
  obtain ⟨-, hw, -⟩ := contextual_check_block_ok hx
  obtain ⟨-, hw', hweight⟩ := contextual_check_block_ok hx'
  exact body_eq free hheader ht ht' (.of_check hc) (.of_check hc') hw hw' hweight

theorem marks_every_body (free : block.CollisionFree block') (hheader : block.header = block'.header)
    (ht : block.Typed) (ht' : block'.Typed) (hc : check_block block ctx.params = .ok ())
    (hc' : check_block block' ctx.params = .ok ()) (hx : contextual_check_block block ctx = .error e)
    (hm : Chainstate.ContextualBlockError.marks e = true) : contextual_check_block block' ctx ≠ .ok () := by
  intro hx'
  obtain ⟨⟨cutoff, hcutoff, hin⟩, hw', hweight⟩ := contextual_check_block_ok hx'
  rcases contextual_check_block_marks hx hm with ⟨cutoff', hcutoff', hout⟩ | ⟨hw, hheavy⟩
  · rw [hheader, hcutoff] at hcutoff'
    obtain rfl := Option.some.inj hcutoff'
    apply hout
    rw [← inContext_stripped, stripped_eq free hheader ht ht' (.of_check hc) (.of_check hc'), inContext_stripped]
    exact hin
  · obtain rfl := body_eq free hheader ht ht' (.of_check hc) (.of_check hc') hw hw' hweight
    omega

end

def HeaderTree.body_context (t : HeaderTree) [Platform] (block : Block) : Option BlockContext :=
  (t.get block.block_hash).map fun node => ⟨t.params, node.height, t.median_time_past block.header.prev_block_hash⟩

namespace Chainstate

variable [Platform]

def Judged (s : Chainstate) (block : Block) (ctx : BlockContext) : Prop :=
  ∃ t, HeaderTree.Changes t s.tree ∧ t.body_context block = some ctx

def Passed (s : Chainstate) (block : Block) : Prop :=
  block.Typed ∧ check_block block s.params = .ok () ∧
    ∃ ctx, s.Judged block ctx ∧ contextual_check_block block ctx = .ok ()

def Refused (s : Chainstate) (hash : BlockHash) (block : Block) : Prop :=
  block.block_hash = hash ∧ block.Typed ∧ check_block block s.params = .ok () ∧ ∃ ctx, s.Judged block ctx ∧
    ((contextual_check_block block ctx = .ok () ∧ s.blocks.lookup hash = some block) ∨
      ∃ e, contextual_check_block block ctx = .error e ∧ ContextualBlockError.marks e = true)

structure Vetted (s : Chainstate) : Prop where
  linked : s.tree.Linked
  rooted : s.chain.head? = some s.tree.genesis
  stored : ∀ hash block, s.blocks.lookup hash = some block → block.block_hash = hash ∧ s.Passed block
  pending : ∀ entry ∈ s.pending_scripts, ∃ block, s.blocks.lookup entry.hash = some block
  marked : ∀ hash ∈ s.tree.invalid, ∃ a block, s.tree.Below a hash ∧ s.Refused a block

variable {s t : Chainstate} {hash : BlockHash} {branch_hashes : List BlockHash} {fork_height : ℕ}

theorem Judged.changes {block : Block} {ctx : BlockContext} (h : s.Judged block ctx) (ht : s.tree.Changes t.tree) :
    t.Judged block ctx := by
  obtain ⟨u, hu, he⟩ := h
  exact ⟨u, hu.trans ht, he⟩

theorem Passed.changes {block : Block} (h : s.Passed block) (ht : s.tree.Changes t.tree) : t.Passed block := by
  obtain ⟨htyped, hcheck, ctx, hj, hc⟩ := h
  refine ⟨htyped, ?_, ctx, hj.changes ht, hc⟩
  rw [params, ht.params]
  exact hcheck

theorem Refused.changes {block : Block} (h : s.Refused hash block) (ht : s.tree.Changes t.tree)
    (hb : ∀ block, s.blocks.lookup hash = some block → t.blocks.lookup hash = some block) :
    t.Refused hash block := by
  obtain ⟨hhash, htyped, hcheck, ctx, hj, hc⟩ := h
  refine ⟨hhash, htyped, ?_, ctx, hj.changes ht, ?_⟩
  · rw [params, ht.params]
    exact hcheck
  · rcases hc with ⟨hok, hs⟩ | hm
    · exact Or.inl ⟨hok, hb _ hs⟩
    · exact Or.inr hm

theorem Vetted.refused (h : Vetted s) {block : Block} (hs : s.blocks.lookup hash = some block) :
    s.Refused hash block := by
  obtain ⟨hhash, htyped, hcheck, ctx, hj, hc⟩ := h.stored hash block hs
  exact ⟨hhash, htyped, hcheck, ctx, hj, Or.inl ⟨hc, hs⟩⟩

theorem below_changes {t t' : HeaderTree} (ht : t.Changes t') {a d : BlockHash} (h : t.Below a d) : t'.Below a d := by
  refine Relation.ReflTransGen.mono (fun p c hp => ?_) _ _ h
  obtain ⟨l, hl, hne, rfl⟩ := HeaderTree.parent_eq_some.mp hp
  exact HeaderTree.parent_eq_some.mpr ⟨l, ht.link hl, hne, rfl⟩

theorem Vetted.step (h : Vetted s) (ht : s.tree.Changes t.tree) (hb : t.blocks = s.blocks)
    (hrooted : t.chain.head? = s.chain.head?)
    (hpending : ∀ entry ∈ t.pending_scripts, entry ∈ s.pending_scripts ∨
      ∃ block, s.blocks.lookup entry.hash = some block)
    (hmarked : ∀ d ∈ t.tree.invalid, d ∈ s.tree.invalid ∨ ∃ a block, t.tree.Below a d ∧ t.Refused a block) :
    Vetted t where
  linked := ht.linked h.linked
  rooted := by
    rw [hrooted, h.rooted, HeaderTree.genesis, HeaderTree.genesis, ht.params]
  stored hash block hs := by
    rw [hb] at hs
    obtain ⟨hhash, hp⟩ := h.stored hash block hs
    exact ⟨hhash, hp.changes ht⟩
  pending entry he := by
    rw [hb]
    rcases hpending entry he with he | he
    · exact h.pending entry he
    · exact he
  marked d hd := by
    rcases hmarked d hd with hd | hd
    · obtain ⟨a, block, hbelow, hr⟩ := h.marked d hd
      exact ⟨a, block, below_changes ht hbelow, hr.changes ht fun b hs => hb ▸ hs⟩
    · exact hd

theorem Vetted.mark_stored (h : Vetted s) {block : Block} (hs : s.blocks.lookup hash = some block)
    (ht : t.tree = s.tree.mark_invalid hash) (hb : t.blocks = s.blocks) (hrooted : t.chain.head? = s.chain.head?)
    (hpending : ∀ entry ∈ t.pending_scripts, entry ∈ s.pending_scripts) :
    Vetted t := by
  have hc : s.tree.Changes t.tree := ht ▸ .single (.mark_invalid _ _)
  refine h.step hc hb hrooted (fun entry he => Or.inl (hpending entry he)) fun d hd => ?_
  rw [ht] at hd
  rcases (HeaderTree.mem_mark_invalid h.linked hash d).1 hd with hd | hbelow
  · exact Or.inl hd
  · exact Or.inr ⟨hash, block, below_changes hc hbelow, (h.refused hs).changes hc fun b hs => hb ▸ hs⟩

theorem Vetted.quiet (h : Vetted s) (ht : s.tree.Changes t.tree) (hi : t.tree.invalid ⊆ s.tree.invalid)
    (hb : t.blocks = s.blocks) (hrooted : t.chain.head? = s.chain.head?)
    (hpending : ∀ entry ∈ t.pending_scripts, entry ∈ s.pending_scripts) : Vetted t :=
  h.step ht hb hrooted (fun entry he => Or.inl (hpending entry he)) fun _ hd => Or.inl (hi hd)

omit [Platform] in
theorem note_all_invalid (t : HeaderTree) (hashes : List BlockHash) : (note_all t hashes).invalid = t.invalid := by
  induction hashes generalizing t with
  | nil => rfl
  | cons hash hashes ih =>
    rw [note_all, ih, HeaderTree.note_connected]
    split
    · rfl
    · exact HeaderTree.set_node_invalid _ _ _

variable {r : Except ConnectError (List (BlockRecord × BlockReceipt))} {sim sim' : UtxoSet} {tree : HeaderTree}

theorem simulate_connect_tree (h : s.simulate_connect branch_hashes sim = (r, sim', tree)) : tree = s.tree ∨
    ((∃ e, r = .error e) ∧
      ∃ b ∈ branch_hashes, ∃ block, s.branch_body b = some block ∧ tree = s.tree.mark_invalid b) := by
  induction branch_hashes generalizing sim r sim' tree with
  | nil =>
    cases h
    exact Or.inl rfl
  | cons hash branch_hashes ih =>
    rw [simulate_connect] at h
    split at h
    · cases h
      exact Or.inl rfl
    rename_i block hbody
    dsimp only at h
    split at h
    · rename_i e utxo hc
      cases h
      exact Or.inr ⟨⟨e, rfl⟩, hash, List.mem_cons_self, block, hbody, rfl⟩
    · split at h
      · rename_i e utxo tree' hr
        cases h
        rcases ih hr with he | ⟨-, b, hb, hm⟩
        · exact Or.inl he
        · exact Or.inr ⟨⟨e, rfl⟩, b, List.mem_cons_of_mem _ hb, hm⟩
      · rename_i parts utxo tree' hr
        cases h
        rcases ih hr with he | ⟨⟨e, he⟩, -⟩
        · exact Or.inl he
        · cases he

theorem branch_walk_genesis (h : Vetted s) {fuel : ℕ} {cursor : BlockHash} {above whole : List BlockHash}
    (hw : s.branch_walk fuel cursor above = some (fork_height, whole)) :
    ∀ b ∈ whole, b ∈ above ∨ b ≠ s.tree.genesis := by
  induction fuel generalizing cursor above with
  | zero => cases hw
  | succ fuel ih =>
    rw [branch_walk] at hw
    split at hw
    · cases hw
    rename_i node hn
    split at hw
    · cases hw
      exact fun b hb => Or.inl hb
    rename_i hinactive
    intro b hb
    rcases ih hw b hb with hb | hb
    · rcases List.mem_cons.mp hb with rfl | hb
      · right
        rintro rfl
        obtain ⟨l, hl, -, hheight, -⟩ := h.linked.genesis
        rw [HeaderTree.link, hn] at hl
        cases hl
        apply hinactive
        have h0 : node.height = 0 := hheight
        rw [h0, ← List.head?_eq_getElem?]
        exact h.rooted
      · exact Or.inl hb
    · exact Or.inr hb

theorem Vetted.branch_stored (h : Vetted s) {b : BlockHash} (hact : s.branch_to_activate hash = .ok (some
    (fork_height, branch_hashes))) (hb : b ∈ branch_hashes) {block : Block} (hbody : s.branch_body b = some block) :
    s.blocks.lookup b = some block := by
  obtain ⟨new_node, conn_node, whole, he⟩ := elected_of hact
  rw [he.cut] at hb
  have hne : b ≠ s.tree.genesis := by
    rcases branch_walk_genesis h he.walk b (List.mem_of_mem_take hb) with hb | hb
    · cases hb
    · exact hb
  obtain ⟨hbody, -⟩ := Option.filter_eq_some_iff.mp hbody
  unfold body at hbody
  split at hbody
  · rwa [← hbody]
  · split at hbody
    · exact absurd ‹_› hne
    · cases hbody

theorem Vetted.simulated (h : Vetted s) (hact : s.branch_to_activate hash = .ok (some (fork_height, branch_hashes)))
    (hsim : s.simulate_branch sim fork_height branch_hashes = (r, sim', tree)) : tree.invalid = s.tree.invalid ∨
      ((∃ e, r = .error e) ∧ ∃ b block, s.blocks.lookup b = some block ∧ tree = s.tree.mark_invalid b) := by
  unfold simulate_branch at hsim
  split at hsim
  · cases hsim
    exact Or.inl rfl
  split at hsim
  · rename_i e utxo tree' hc
    cases hsim
    rcases simulate_connect_tree hc with he | ⟨-, b, hb, block, hbody, hm⟩
    · exact Or.inl (he ▸ rfl)
    · exact Or.inr ⟨⟨e, rfl⟩, b, block, h.branch_stored hact hb hbody, hm⟩
  · rename_i parts utxo tree' hc
    cases hsim
    rcases simulate_connect_tree hc with he | ⟨⟨e, he⟩, -⟩
    · exact Or.inl (by rw [note_all_invalid, he])
    · cases he

omit [Platform] in
theorem popped_head (s : Chainstate) {n : ℕ} (hn : n = 0 ∨ n < s.chain.length) (utxo : UtxoSet)
    (undos : List BlockUndo) :
    (s.popped n utxo undos).chain.head? = s.chain.head? := by
  cases hl : s.chain with
  | nil => simp [popped, hl]
  | cons a chain =>
    rw [hl, List.length_cons] at hn
    obtain ⟨k, hk⟩ : ∃ k, chain.length + 1 - n = k + 1 := ⟨chain.length - n, by omega⟩
    simp [popped, hl, hk]

theorem Vetted.rewound (h : Vetted s) {steps target : ℕ} {r : Except ConnectError Unit}
    (hl : rewind_loop steps (s.drop_pending_above target) = (r, t)) (connected : BlockHash) (stuck : Bool) :
    Vetted { t with connected, stuck } := by
  obtain ⟨n, utxo, undos, rfl, -, hn⟩ := rewind_loop_popped hl
  refine h.quiet .refl (Finset.Subset.refl _) rfl ?_ ?_
  · exact popped_head (s.drop_pending_above target) hn utxo undos
  · intro entry he
    exact (List.mem_filter.mp he).1

theorem Vetted.condemned (h : Vetted s) {entry : PendingScripts} {rest : List PendingScripts}
    (front : s.pending_scripts = entry :: rest) :
    Vetted ({ s with pending_scripts := rest }.condemn entry) := by
  obtain ⟨block, hb⟩ := h.pending entry (by simp [front])
  refine h.mark_stored hb rfl rfl rfl fun p hp => ?_
  rw [front]
  exact List.mem_cons_of_mem _ (List.mem_filter.mp hp).1

theorem Activate.vetted (hm : Activate s t) (h : Vetted s) : Vetted t := by
  have hc : s.tree.Changes t.tree := hm.move.tree
  cases hm with
  | connect_failed stored failed => exact h.mark_stored stored rfl rfl rfl fun _ he => he
  | @connect block undo check receipt utxo node stored known extends_tip connects =>
    have hi : (s.tree.note_connected block.block_hash).invalid = s.tree.invalid :=
      note_all_invalid _ [block.block_hash]
    have hhead : (s.chain ++ [block.block_hash]).head? = s.chain.head? := by
      rw [List.head?_append, h.rooted]
      rfl
    cases check with
    | none => exact h.quiet hc (fun d hd => hi ▸ hd) rfl hhead fun _ he => he
    | some check =>
      refine h.step hc rfl hhead ?_ fun d hd => Or.inl (hi ▸ hd)
      intro entry he
      rcases List.mem_append.mp he with he | he
      · exact Or.inl he
      · obtain rfl := List.mem_singleton.mp he
        exact Or.inr ⟨block, stored⟩
  | @settle entry rest front passed =>
    refine h.quiet hc (Finset.Subset.refl _) rfl rfl fun p hp => ?_
    rw [front]
    exact List.mem_cons_of_mem _ hp
  | @rewound t target floor popped => exact h.rewound popped _ t.stuck
  | @rewind_stuck t target e floor popped => exact h.rewound popped t.connected true
  | @condemned t entry rest front preflight popped => exact (h.condemned front).rewound popped _ t.stuck
  | @condemned_stuck t entry rest e front preflight popped =>
    exact (h.condemned front).rewound popped t.connected true
  | flush =>
    obtain ⟨utxo, undos, committed_coins_tip, inflight_flush, hf⟩ := flush_eq s [] s.tip_height
    rw [hf]
    exact h.quiet .refl (Finset.Subset.refl _) rfl rfl fun _ he => he
  | simulate_failed elected simulated =>
    rcases h.simulated elected simulated with hi | ⟨-, b, block, hb, he⟩
    · exact h.quiet hc (fun d hd => hi ▸ hd) rfl rfl fun _ he => he
    · exact h.mark_stored hb he rfl rfl fun _ he => he
  | @adopt hash fork_height branch_hashes parts sim tree elected simulated =>
    obtain ⟨_, _, _, _, _, _, _, ha, -⟩ := adopt_eq s hash fork_height branch_hashes parts
      (s.utxo.overlay.2.unoverlay sim true) tree
    rw [ha] at hc ⊢
    have hi : tree.invalid = s.tree.invalid := by
      rcases h.simulated elected simulated with hi | ⟨⟨e, he⟩, -⟩
      · exact hi
      · cases he
    refine h.quiet hc (fun d hd => hi ▸ hd) rfl ?_ ?_
    · change (s.chain.take (fork_height + 1) ++ branch_hashes).head? = s.chain.head?
      cases hl : s.chain with
      | nil =>
        have hr := h.rooted
        rw [hl] at hr
        cases hr
      | cons a chain => simp
    · intro entry he
      exact (List.mem_filter.mp he).1

theorem Activates.vetted (hm : Activates s t) (h : Vetted s) : Vetted t := by
  induction hm with
  | refl => exact h
  | tail _ hm ih => exact hm.vetted ih

theorem insert_invalid (t : HeaderTree) (header : BlockHeader) (now : ℕ) : (t.insert header now).2.invalid =
    t.invalid := by
  rcases HeaderTree.insert_cases t header now with ⟨he, -⟩ | ⟨parent, chainwork, -, he⟩ <;> rw [he]
  rfl

theorem Vetted.insert (h : Vetted s) (header : BlockHeader) (now : ℕ) :
    Vetted { s with tree := (s.tree.insert header now).2 } :=
  h.quiet (.single (.insert _ header now)) (fun _ hd => insert_invalid s.tree header now ▸ hd) rfl rfl fun _ he => he

theorem Vetted.unstored (h : Vetted s) (hnew : s.tree.get hash = none) : s.blocks.lookup hash = none := by
  cases hs : s.blocks.lookup hash with
  | none => rfl
  | some block =>
    obtain ⟨rfl, -, -, ctx, ⟨t, ht, hctx⟩, -⟩ := h.stored hash block hs
    obtain ⟨node, hn, -⟩ := Option.map_eq_some_iff.mp hctx
    have hl : t.link block.block_hash = some node.link := by rw [HeaderTree.link, hn]; rfl
    have hl' := ht.link hl
    rw [HeaderTree.link, hnew] at hl'
    cases hl'

theorem Vetted.retain (h : Vetted s) {block : Block} (hp : s.Passed block)
    (hnew : s.blocks.lookup block.block_hash = none) : Vetted (s.retain_body block.block_hash block) := by
  have hc : s.tree.Changes (s.retain_body block.block_hash block).tree := .single (.note_body _ _ _)
  have hi : (s.retain_body block.block_hash block).tree.invalid = s.tree.invalid := HeaderTree.set_node_invalid _ _ _
  have hkept : ∀ hash b, s.blocks.lookup hash = some b →
    (s.retain_body block.block_hash block).blocks.lookup hash = some b := by
    intro hash b hs
    have hne : hash ≠ block.block_hash := by
      rintro rfl
      rw [hnew] at hs
      cases hs
    rw [retain_body, AList.lookup_insert_ne hne, hs]
  refine ⟨hc.linked h.linked, ?_, ?_, ?_, ?_⟩
  · have hr := h.rooted
    rwa [HeaderTree.genesis, ← hc.params] at hr
  · intro hash b hs
    by_cases he : hash = block.block_hash
    · subst he
      rw [retain_stored] at hs
      obtain rfl := Option.some.inj hs
      exact ⟨rfl, hp.changes hc⟩
    · rw [retain_body, AList.lookup_insert_ne he] at hs
      obtain ⟨hhash, hp⟩ := h.stored hash b hs
      exact ⟨hhash, hp.changes hc⟩
  · intro entry he
    obtain ⟨b, hs⟩ := h.pending entry he
    exact ⟨b, hkept _ _ hs⟩
  · intro d hd
    rw [hi] at hd
    obtain ⟨a, b, hbelow, hr⟩ := h.marked d hd
    exact ⟨a, b, below_changes hc hbelow, hr.changes hc (hkept a)⟩

theorem Vetted.accept_body (h : Vetted s) {block : Block} {node : HeaderNode} (ht : block.Typed)
    (hcheck : check_block block s.params = .ok ()) (known : s.tree.get block.block_hash = some node)
    (hnew : s.blocks.lookup block.block_hash = none) :
    Vetted (s.accept_body block block.block_hash node.height).2 := by
  have hj : s.Judged block ⟨s.params, node.height, s.tree.median_time_past block.header.prev_block_hash⟩ := by
    refine ⟨s.tree, .refl, ?_⟩
    rw [HeaderTree.body_context, known]
    rfl
  unfold Chainstate.accept_body
  split
  · rename_i e herr
    split
    · rename_i hm
      have hc : s.tree.Changes (s.tree.mark_invalid block.block_hash) := .single (.mark_invalid _ _)
      refine h.step hc rfl rfl (fun entry he => Or.inl he) fun d hd => ?_
      rcases (HeaderTree.mem_mark_invalid h.linked block.block_hash d).1 hd with hd | hbelow
      · exact Or.inl hd
      · have hr : s.Refused block.block_hash block := ⟨rfl, ht, hcheck, _, hj, Or.inr ⟨e, herr, hm⟩⟩
        exact Or.inr ⟨block.block_hash, block, below_changes hc hbelow, hr.changes hc fun _ hs => hs⟩
    · exact h
  · rename_i hok
    have hr := h.retain ⟨ht, hcheck, _, hj, hok⟩ hnew
    exact (activate_body_activates (retain_stored s _ block) (retain_known block known)).vetted hr

theorem Vetted.accept_checked (h : Vetted s) {block : Block} (ht : block.Typed)
    (hcheck : check_block block s.params = .ok ()) (now : ℕ) : Vetted (s.accept_block_checked block now).2 := by
  have hi := h.insert block.header now
  have hparams : (s.tree.insert block.header now).2.params = s.tree.params := (HeaderTree.Change.insert _ _ _).params
  unfold accept_block_checked
  dsimp only
  split
  · rename_i e tree hins
    rw [hins] at hi
    exact hi
  · rename_i height tree hins
    rw [hins] at hi hparams
    obtain ⟨hnone, -⟩ := HeaderTree.insert_added hins
    obtain ⟨node, hget, rfl⟩ := HeaderTree.insert_added_known hins
    exact hi.accept_body ht (by rw [params, hparams]; exact hcheck) hget (h.unstored hnone)
  · rename_i height tree hins
    obtain ⟨rfl, node, hget, rfl⟩ := HeaderTree.insert_known hins
    split
    · exact h
    split
    · exact (reorg_to_activates s _ _ _).vetted h
    rename_i hfresh
    have hnone : s.blocks.lookup block.block_hash = none := by
      simp only [have_body, Bool.or_eq_true, not_or, Bool.not_eq_true, Option.isSome_eq_false_iff,
        Option.isNone_iff_eq_none] at hfresh
      exact hfresh.2
    exact h.accept_body ht hcheck hget hnone

end Chainstate

/-- The calls that judge blocks on what they say: all but the operator's `invalidate_block`. -/
def ChainOp.Judges [Platform] : ChainOp → Prop
  | .accept_block block _ => block.Typed
  | .accept_prepared_block prepared _ => prepared.block.Typed
  | .invalidate_block _ _ => False
  | _ => True

namespace Chainstate

variable [Platform]

variable {s : Chainstate}

theorem join_vetted (h : Vetted s) : Vetted s.join_coins_flush.2 := by
  obtain ⟨utxo, undos, committed_coins_tip, inflight_flush, hj⟩ := join_eq s
  rw [hj]
  exact h.quiet .refl (Finset.Subset.refl _) rfl rfl fun _ he => he

theorem Vetted.precious (h : Vetted s) (hash : BlockHash) : Vetted (s.precious_block hash).2 := by
  have hp : Vetted { s with precious := some hash } := h.quiet .refl (Finset.Subset.refl _) rfl rfl fun _ he => he
  have hr := (reorg_activates { s with precious := some hash } hash).vetted hp
  unfold precious_block
  split
  · split
    · rename_i hm
      rw [hm] at hr
      exact hr
    · rename_i hm
      rw [hm] at hr
      exact hr
  · exact h

variable {t : Chainstate}

theorem Vetted.reconsider (h : Vetted s) {hash : BlockHash} {rounds : ℕ} {r : Except ConnectError Bool}
    (ht : s.reconsider_block hash rounds = some (r, t)) : Vetted t := by
  unfold reconsider_block at ht
  split at ht
  · obtain ⟨u, hu, he⟩ := Option.map_eq_some_iff.mp ht
    cases he
    apply (activate_best_activates hu).vetted
    refine h.quiet (.single (.clear_invalid_subtree _ hash)) ?_ rfl rfl fun _ he => he
    change (s.tree.clear_invalid_subtree hash).invalid ⊆ s.tree.invalid
    unfold HeaderTree.clear_invalid_subtree
    split
    · exact Finset.Subset.refl _
    · exact Finset.filter_subset _ _
  · cases ht
    exact h

theorem Vetted.apply (h : Vetted s) {op : ChainOp} (hop : op.Judges) (ht : op.apply s = some t) :
    Vetted t := by
  cases op with
  | enable_speculative_connect =>
    cases ht
    exact h.quiet .refl (Finset.Subset.refl _) rfl rfl fun _ he => he
  | accept_header header now =>
    cases ht
    have hi := h.insert header now
    unfold accept_header
    split <;> (rename_i hins; rw [hins] at hi; exact hi)
  | accept_block block now =>
    cases ht
    unfold accept_block
    split
    · exact h
    · exact h.accept_checked hop ‹_› now
  | accept_prepared_block prepared now =>
    cases ht
    unfold accept_prepared_block
    split
    · split
      · exact h
      · exact h.accept_checked hop ‹_› now
    · rename_i hparams
      exact h.accept_checked hop (not_not.mp hparams ▸ prepared.checked) now
  | maybe_reorg hash =>
    cases ht
    exact (reorg_activates s hash).vetted h
  | precious_block hash =>
    cases ht
    exact h.precious hash
  | invalidate_block hash rounds => cases hop
  | reconsider_block hash rounds =>
    obtain ⟨⟨r, u⟩, hu, rfl⟩ := Option.map_eq_some_iff.mp ht
    exact h.reconsider hu
  | rewind_connected target =>
    cases ht
    exact (rewind_activates s target).vetted h
  | drain_scripts =>
    cases ht
    exact (drain_to_activates s 0).vetted h
  | take_checked =>
    cases ht
    exact h.quiet .refl (Finset.Subset.refl _) rfl rfl fun _ he => he
  | verify scripts_verified =>
    cases ht
    exact h.quiet .refl (Finset.Subset.refl _) rfl rfl fun _ he => he
  | flush_coins =>
    cases ht
    exact (flush_activates s).vetted h
  | flush_coins_with =>
    cases ht
    exact (Activate.flush s).vetted h
  | join_coins_flush =>
    cases ht
    exact join_vetted h
  | commit_lands =>
    cases ht
    exact h.quiet .refl (Finset.Subset.refl _) rfl rfl fun _ he => he

theorem start_vetted (params : Params) (utxo : UtxoSet) : Vetted (start params utxo) where
  linked := HeaderTree.Linked.new params
  rooted := rfl
  stored hash block hs := by simp [start, Chainstate.new] at hs
  pending entry he := by cases he
  marked hash hm := by simp [start, Chainstate.new, HeaderTree.new] at hm

variable {ops : List ChainOp}

theorem run_vetted (hs : Vetted s) (hops : ∀ op ∈ ops, op.Judges) (ht : run ops s = some t) :
    Vetted t := by
  induction ops generalizing s with
  | nil =>
    cases ht
    exact hs
  | cons op ops ih =>
    rw [run, List.foldlM_cons] at ht
    obtain ⟨u, hu, ht⟩ := Option.bind_eq_some_iff.mp ht
    rw [List.forall_mem_cons] at hops
    exact ih (hs.apply hops.1 hu) hops.2 ht

theorem run_params (ht : run ops s = some t) : t.params = s.params := by
  induction ops generalizing s with
  | nil =>
    cases ht
    rfl
  | cons op ops ih =>
    rw [run, List.foldlM_cons] at ht
    obtain ⟨u, hu, ht⟩ := Option.bind_eq_some_iff.mp ht
    rw [ih ht, params, params, (apply_moves hu).tree.params]

end Chainstate

theorem collisionFree_self [Platform] {block : Block} (inj : (block.hashed.map Platform.sha256d).Nodup)
    (leaf : ∀ leaf ∈ block.txids, leaf ∉ (hashed_inputs block.txids).map Platform.sha256d) :
    block.CollisionFree block where
  inj _ ha _ hb := List.inj_on_of_nodup_map inj ((List.mem_append.mp ha).elim id id)
    ((List.mem_append.mp hb).elim id id)
  leaf l hl _ hb he :=
    leaf l ((List.mem_append.mp hl).elim id id) (he ▸ List.mem_map_of_mem ((List.mem_append.mp hb).elim id id))

@[reducible] def Platform.digest : Platform :=
  let sha256d (bytes : List UInt8) : Hash256 :=
    BitVec.ofNat 256 (bytes.foldl (fun value byte => (value * 257 + byte.toNat + 1) % 65537) 0 * 256)
  { Platform.sample with
    sha256d
    txid := fun tx => sha256d tx.write_without_witness
    wtxid := fun tx => sha256d tx.encode
    block_hash := fun header => sha256d header.encode }

section

attribute [local instance] Platform.digest

instance digest_serialized : Serialized where
  txid _ := rfl
  wtxid _ := rfl
  block_hash _ := rfl

def witnessed_tx : Transaction := ⟨2, [⟨⟨7, 0⟩, [], SEQUENCE_FINAL, [[1], [2, 3]]⟩], [⟨5, []⟩], 0⟩

def committing (lock_time : ℕ) : Block :=
  let commitment := Hash256.to_bytes (Platform.sha256d
    (Hash256.to_bytes (merkle_root [0, witnessed_tx.wtxid]).1 ++ List.replicate 32 0))
  let coinbase : Transaction := ⟨1, [⟨OutPoint.NULL, push_int 1 ++ [1], 0, [List.replicate 32 0]⟩],
    [⟨5000000000, []⟩, ⟨0, WITNESS_COMMITMENT_HEADER ++ commitment⟩], lock_time⟩
  ⟨sample_header sample_params.genesis_header.hash 2 (merkle_root [coinbase.txid, witnessed_tx.txid]).1,
    [coinbase, witnessed_tx]⟩

theorem committing_typed {lock_time : ℕ} (h : lock_time < 2 ^ 32) : (committing lock_time).Typed where
  header := ⟨by simp [committing, sample_header], by simp [committing, sample_header],
    by simp [committing, sample_header]⟩
  transactions := by
    intro tx ht
    simp only [committing, List.mem_cons, List.not_mem_nil, or_false] at ht
    rcases ht with rfl | rfl
    · exact ⟨by simp, by simp [OutPoint.NULL], h⟩
    · exact ⟨by simp [witnessed_tx], by simp [witnessed_tx, SEQUENCE_FINAL], by simp [witnessed_tx]⟩

theorem committing_hashes : (committing 0).hashed.map Platform.sha256d =
    [4102144, 6240768, 11382272, 11837696, 10224128, 1078016, 3801344, 9109504] := by decide +kernel

theorem committing_txids : (committing 0).txids = [6240768, 11382272] := by decide +kernel

theorem committing_nodes : (hashed_inputs (committing 0).txids).map Platform.sha256d = [1078016] := by decide +kernel

theorem committing_free : (committing 0).CollisionFree (committing 0) := by
  apply collisionFree_self
  · rw [committing_hashes]
    decide
  · rw [committing_nodes, committing_txids]
    simp

namespace Chainstate

end Chainstate

end

end AvilaNode
