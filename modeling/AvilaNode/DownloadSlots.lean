import AvilaNode.PeerSync

/-! The slots of a peer and the queue behind them, over every run of calls. -/

namespace AvilaNode

namespace PeerSync

def hashes (p : PeerSync) : List BlockHash := p.in_flight.map Prod.fst

structure Exact (p : PeerSync) : Prop where
  cap : p.in_flight.length ≤ MAX_BLOCKS_IN_TRANSIT_PER_PEER
  distinct : p.hashes.Nodup
  wanted : ∀ hash, hash ∈ p.wanted ↔ hash ∈ p.hashes
  pending_distinct : p.pending_blocks.Nodup
  pending : ∀ hash, hash ∈ p.pending_set ↔ hash ∈ p.pending_blocks
  pending_cap : p.pending_blocks.length ≤ MAX_PENDING_BLOCKS_PER_PEER

theorem Exact.new : Exact new :=
  ⟨Nat.zero_le _, .nil, fun _ => by simp [PeerSync.new, hashes], .nil, fun _ => by simp [PeerSync.new], Nat.zero_le _⟩

def slots (p : PeerSync) : List (BlockHash × ℕ) × Finset BlockHash × List BlockHash × Finset BlockHash :=
  (p.in_flight, p.wanted, p.pending_blocks, p.pending_set)

variable {p q : PeerSync} {hash : BlockHash} {want : List InvVector}

theorem Exact.of_slots (h : Exact p) (hs : q.slots = p.slots) : Exact q := by
  cases p
  cases q
  cases hs
  exact ⟨h.cap, h.distinct, h.wanted, h.pending_distinct, h.pending, h.pending_cap⟩

@[simp] theorem hashes_want_hash (p : PeerSync) (hash : BlockHash) (at_ : ℕ) :
    (p.want_hash hash at_).hashes = p.hashes ++ [hash] := by
  simp [hashes, want_hash]

theorem Exact.want_hash (h : Exact p) (hnew : hash ∉ p.wanted)
    (hfree : p.in_flight.length < MAX_BLOCKS_IN_TRANSIT_PER_PEER) (at_ : ℕ) : Exact (p.want_hash hash at_) where
  cap := by
    change (p.in_flight ++ [(hash, at_)]).length ≤ _
    rw [List.length_append]
    exact hfree
  distinct := by
    rw [hashes_want_hash]
    apply List.Nodup.append h.distinct (List.nodup_singleton hash)
    rw [List.disjoint_singleton]
    exact fun hm => hnew ((h.wanted hash).mpr hm)
  wanted other := by
    rw [hashes_want_hash, List.mem_append, List.mem_singleton, ← h.wanted]
    change other ∈ insert hash p.wanted ↔ _
    rw [Finset.mem_insert, or_comm]
  pending_distinct := h.pending_distinct
  pending := h.pending
  pending_cap := h.pending_cap

theorem hashes_release (p : PeerSync) (hash : BlockHash) : (p.release hash).2.hashes = p.hashes.erase hash := by
  have hmap : p.hashes.erase hash = (p.in_flight.eraseP fun slot => slot.1 == hash).map Prod.fst := by
    rw [List.erase_eq_eraseP', hashes, List.eraseP_map]
    rfl
  change (p.clear_in_flight hash).2.hashes = _
  unfold clear_in_flight
  split
  · exact hmap.symm
  · next hnone =>
    rw [hmap, List.eraseP_of_forall_not]
    · rfl
    · intro slot hslot heq
      exact hnone (List.any_eq_true.mpr ⟨slot, hslot, heq⟩)

theorem Exact.release (h : Exact p) (hash : BlockHash) : Exact (p.release hash).2 := by
  have hrest : (p.release hash).2.wanted = p.wanted.erase hash ∧ (p.release hash).2.pending_blocks = p.pending_blocks
      ∧ (p.release hash).2.pending_set = p.pending_set := by
    by_cases hf : (p.in_flight.any fun slot => slot.1 == hash) = true <;> simp [PeerSync.release, clear_in_flight, hf]
  obtain ⟨hw, hb, hs⟩ := hrest
  have hlen : (p.release hash).2.in_flight.length ≤ p.in_flight.length := by
    have hle := congrArg List.length (hashes_release p hash)
    have herase := List.length_erase_le (a := hash) (l := p.hashes)
    simp only [hashes, List.length_map] at hle herase
    omega
  refine ⟨hlen.trans h.cap, ?_, fun other => ?_, hb ▸ h.pending_distinct, ?_, hb ▸ h.pending_cap⟩
  · rw [hashes_release]
    exact h.distinct.erase hash
  · rw [hw, hashes_release, Finset.mem_erase, h.distinct.mem_erase_iff, h.wanted]
  · rw [hb, hs]
    exact h.pending

theorem not_mem_release (h : Exact p) {other : BlockHash} (hm : hash ∈ p.hashes) :
    hash ∉ (p.release other).2.hashes ↔ hash = other := by
  rw [hashes_release, h.distinct.mem_erase_iff]
  constructor
  · intro hn
    by_contra hne
    exact hn ⟨hne, hm⟩
  · rintro rfl
    exact fun hne => hne.1 rfl

structure Asked (p : PeerSync) (want : List InvVector) (q : PeerSync) : Prop where
  exact : Exact q
  hashes : q.hashes = p.hashes ++ want.map InvVector.hash

theorem Asked.nothing (h : Exact p) : Asked p [] p := ⟨h, by simp⟩

theorem Asked.length (h : Asked p want q) :
    q.in_flight.length = p.in_flight.length + want.length := by
  have hlen := congrArg List.length h.hashes
  simpa [PeerSync.hashes] using hlen

theorem Asked.want_hash (h : Asked p want q) (inv : InvVector) (hnew : inv.hash ∉ q.wanted)
    (hfree : p.in_flight.length + want.length < MAX_BLOCKS_IN_TRANSIT_PER_PEER) (at_ : ℕ) :
    Asked p (want ++ [inv]) (q.want_hash inv.hash at_) := by
  refine ⟨h.exact.want_hash hnew (h.length ▸ hfree) at_, ?_⟩
  rw [hashes_want_hash, h.hashes, List.map_append, List.append_assoc]
  rfl

theorem Asked.fresh (h : Asked p want q) : (want.map InvVector.hash).Nodup ∧ ∀ inv ∈ want, inv.hash ∉ p.hashes := by
  have hd := h.exact.distinct
  rw [h.hashes] at hd
  obtain ⟨-, hw, hdisjoint⟩ := List.nodup_append'.mp hd
  exact ⟨hw, fun inv hinv hp => hdisjoint hp (List.mem_map_of_mem hinv)⟩

/-- What a reply asks for is not in flight yet. -/
def Unasked (p : PeerSync) (reply : Option Message) : Prop := ∀ sent, reply = some (.GetData sent) →
  (sent.map InvVector.hash).Nodup ∧ ∀ inv ∈ sent, inv.hash ∉ p.hashes

theorem Asked.request (h : Asked p want q) : Exact q ∧ Unasked p (request want) := by
  refine ⟨h.exact, fun sent hsent => ?_⟩
  unfold PeerSync.request at hsent
  split at hsent
  · cases hsent
  · cases hsent
    exact h.fresh

variable {pending : List BlockHash}

theorem Exact.pop (h : Exact p) (hp : p.pending_blocks = hash :: pending) :
    Exact { p with pending_blocks := pending, pending_set := p.pending_set.erase hash } where
  cap := h.cap
  distinct := h.distinct
  wanted := h.wanted
  pending_distinct := by
    have hd := h.pending_distinct
    rw [hp] at hd
    exact hd.of_cons
  pending other := by
    have hd := h.pending_distinct
    rw [hp] at hd
    rw [Finset.mem_erase, h.pending, hp, List.mem_cons]
    constructor
    · rintro ⟨hne, rfl | hm⟩
      · exact absurd rfl hne
      · exact hm
    · intro hm
      refine ⟨?_, Or.inr hm⟩
      rintro rfl
      exact (List.nodup_cons.mp hd).1 hm
  pending_cap := by
    have hcap := h.pending_cap
    rw [hp, List.length_cons] at hcap
    exact Nat.le_of_succ_le hcap

def owing (p : PeerSync) (want : List InvVector) (at_ : ℕ) : PeerSync :=
  { p with in_flight := p.in_flight ++ want.map fun inv => (inv.hash, at_) }

theorem Exact.push (h : Exact p) (hnew : hash ∉ p.pending_set)
    (hcap : p.pending_blocks.length < MAX_PENDING_BLOCKS_PER_PEER) :
    Exact { p with pending_set := insert hash p.pending_set, pending_blocks := p.pending_blocks ++ [hash] } where
  cap := h.cap
  distinct := h.distinct
  wanted := h.wanted
  pending_distinct := by
    apply List.Nodup.append h.pending_distinct (List.nodup_singleton hash)
    rw [List.disjoint_singleton]
    exact fun hm => hnew ((h.pending hash).mpr hm)
  pending other := by
    rw [Finset.mem_insert, h.pending, List.mem_append, List.mem_singleton, or_comm]
  pending_cap := by
    rw [List.length_append]
    exact hcap

section

variable [Platform]

variable {free : ℕ} {p : PeerSync}

variable (cs : Chainstate)

theorem want_loop_asked (exclude : Finset BlockHash) (at_ : ℕ) (h : Asked p want q)
    (hfree : p.in_flight.length + free ≤ MAX_BLOCKS_IN_TRANSIT_PER_PEER) (hashes : List BlockHash) :
    Asked p (want_loop cs exclude free at_ hashes q want).2 (want_loop cs exclude free at_ hashes q want).1 := by
  induction hashes generalizing q want with
  | nil => exact h
  | cons hash hashes ih =>
    rw [want_loop]
    split
    · exact h
    · next hroom =>
      split
      · exact ih h
      · next hnew =>
        rw [not_or, not_or] at hnew
        apply ih
        exact h.want_hash ⟨.WitnessBlock, hash⟩ hnew.2.2 (by omega) at_

theorem drain_loop_asked (at_ : ℕ) (h : Asked p want q)
    (hfree : p.in_flight.length + free ≤ MAX_BLOCKS_IN_TRANSIT_PER_PEER) (hp : q.pending_blocks = pending) :
    Asked p (drain_loop cs free at_ pending q want).2 (drain_loop cs free at_ pending q want).1 := by
  induction pending generalizing q want with
  | nil => exact h
  | cons hash pending ih =>
    have hpop : Asked p want { q with pending_blocks := pending, pending_set := q.pending_set.erase hash } :=
      ⟨h.exact.pop hp, h.hashes⟩
    rw [drain_loop]
    dsimp only
    split
    · next hroom =>
      split
      · exact ih hpop rfl
      · next hnew =>
        rw [not_or] at hnew
        refine ih ?_ rfl
        exact hpop.want_hash ⟨.WitnessBlock, hash⟩ hnew.2 (by omega) at_
    · exact h

theorem on_inv_step_asked (contains_hash : BlockHash → Bool) (at_ : ℕ)
    (hfree : p.in_flight.length + free ≤ MAX_BLOCKS_IN_TRANSIT_PER_PEER) {acc : PeerSync × List InvVector}
    (h : Asked p acc.2 (acc.1.owing acc.2 at_)) (inv : InvVector) :
    Asked p (on_inv_step cs contains_hash free acc inv).2
      ((on_inv_step cs contains_hash free acc inv).1.owing (on_inv_step cs contains_hash free acc inv).2 at_) := by
  unfold on_inv_step
  dsimp only
  split
  · exact h
  split
  · exact h
  split
  · exact h
  split
  · split
    · next hpush =>
      simp only [Bool.and_eq_true, decide_eq_true_eq] at hpush
      exact ⟨h.exact.push (p := acc.1.owing acc.2 at_) hpush.2 hpush.1.2, h.hashes⟩
    · exact h
  · next hroom =>
    split
    · exact h
    split
    · exact h
    · next hnew =>
      have hask := h.want_hash ⟨if inv.inv_type.is_block then .WitnessBlock else .WitnessTx, inv.hash⟩
        hnew (by omega) at_
      have hsame : (acc.1.owing acc.2 at_).want_hash inv.hash at_ =
          owing { acc.1 with wanted := insert inv.hash acc.1.wanted }
            (acc.2 ++ [⟨if inv.inv_type.is_block then .WitnessBlock else .WitnessTx, inv.hash⟩]) at_ := by
        simp [owing, PeerSync.want_hash]
      rw [← hsame]
      exact hask

section

variable (h : Exact p)
include h

theorem on_inv_asked (cs : Chainstate) (contains_hash : BlockHash → Bool) (invs : List InvVector)
    (global_free at_ : ℕ) :
    Exact (p.on_inv cs contains_hash invs global_free at_).2 ∧
      Unasked p (p.on_inv cs contains_hash invs global_free at_).1 := by
  have hfree : p.in_flight.length + min p.free global_free ≤ MAX_BLOCKS_IN_TRANSIT_PER_PEER := by
    have hcap := h.cap
    unfold free
    omega
  have hfold : ∀ acc : PeerSync × List InvVector, Asked p acc.2 (acc.1.owing acc.2 at_) →
      Asked p (invs.foldl (on_inv_step cs contains_hash (min p.free global_free)) acc).2
        ((invs.foldl (on_inv_step cs contains_hash (min p.free global_free)) acc).1.owing
          (invs.foldl (on_inv_step cs contains_hash (min p.free global_free)) acc).2 at_) := by
    induction invs with
    | nil => exact fun acc hacc => hacc
    | cons inv invs ih => exact fun acc hacc => ih _ (on_inv_step_asked cs contains_hash at_ hfree hacc inv)
  have hstart : Asked p [] (p.owing [] at_) := by
    have howing : p.owing [] at_ = p := by simp [owing]
    rw [howing]
    exact .nothing h
  exact (hfold (p, []) hstart).request

theorem drain_asked (cs : Chainstate) (global_free at_ : ℕ) :
    Exact (p.drain_pending cs global_free at_).2 ∧ Unasked p (p.drain_pending cs global_free at_).1 := by
  have hcap := h.cap
  unfold drain_pending
  dsimp only
  split
  · exact ⟨h, fun sent hsent => by cases hsent⟩
  · refine (drain_loop_asked cs at_ (.nothing h) ?_ rfl).request
    unfold free
    omega

theorem want_asked (cs : Chainstate) (hashes : List BlockHash) (exclude : Finset BlockHash) (at_ : ℕ) :
    Exact (p.want_blocks_excluding cs hashes exclude at_).2 ∧
      Unasked p (p.want_blocks_excluding cs hashes exclude at_).1 := by
  have hcap := h.cap
  unfold want_blocks_excluding
  split
  · exact ⟨h, fun sent hsent => by cases hsent⟩
  · refine (want_loop_asked cs exclude at_ (.nothing h) ?_ hashes).request
    unfold free
    omega

omit [Platform] in
theorem want_one_asked (hash : BlockHash) (at_ : ℕ) :
    Exact (p.want_one hash at_).2 ∧ Unasked p (p.want_one hash at_).1 := by
  unfold want_one
  split
  · exact ⟨h, fun sent hsent => by cases hsent⟩
  · next hroom =>
    split
    · exact ⟨h, fun sent hsent => by cases hsent⟩
    · next hnone =>
      have hnew : hash ∉ p.wanted := by
        rw [h.wanted, PeerSync.hashes, List.mem_map]
        rintro ⟨slot, hslot, heq⟩
        exact hnone (List.any_eq_true.mpr ⟨slot, hslot, beq_iff_eq.mpr heq⟩)
      have hask := (Asked.nothing h).want_hash ⟨.WitnessBlock, hash⟩ hnew
        (by simpa using hroom) at_
      exact hask.request

omit [Platform] in
theorem Exact.release_all (hashes : List BlockHash) :
    Exact (hashes.foldl (fun p hash => (p.release hash).2) p) := by
  induction hashes generalizing p with
  | nil => exact h
  | cons hash hashes ih => exact ih (h.release hash)

omit [Platform] in
theorem Exact.on_notfound (invs : List InvVector) : Exact (p.on_notfound invs).2 := by
  induction invs generalizing p with
  | nil => exact h
  | cons inv invs ih => exact ih (h.release inv.hash)

omit [Platform] in
theorem Exact.release_in_flight : Exact p.release_in_flight.2 := by
  have herase : ∀ (slots : List (BlockHash × ℕ)) (wanted : Finset BlockHash) (hash : BlockHash),
      hash ∈ slots.foldl (fun wanted slot => wanted.erase slot.1) wanted ↔ hash ∈ wanted ∧
        hash ∉ slots.map Prod.fst := by
    intro slots
    induction slots with
    | nil => simp
    | cons slot slots ih =>
      intro wanted hash
      rw [List.foldl_cons, ih, Finset.mem_erase, List.map_cons, List.mem_cons, not_or]
      tauto
  refine ⟨Nat.zero_le _, .nil, fun hash => ?_, h.pending_distinct, h.pending, h.pending_cap⟩
  change hash ∈ p.in_flight.foldl _ p.wanted ↔ hash ∈ []
  rw [herase, h.wanted]
  exact iff_of_false (fun hm => hm.2 hm.1) List.not_mem_nil

theorem Exact.captured (block : Block) : Exact (p.on_block_for_external_validation block).2 := by
  have hr := h.release block.block_hash
  refine ⟨hr.cap, hr.distinct, hr.wanted, hr.pending_distinct.filter _, fun hash => ?_, ?_⟩
  · change hash ∈ Finset.erase _ _ ↔ hash ∈ List.filter _ _
    rw [Finset.mem_erase, List.mem_filter, bne_iff_ne, and_comm]
    exact and_congr_left' (hr.pending hash)
  · exact (List.length_filter_le _ _).trans hr.pending_cap

end

omit [Platform] in
@[simp] theorem block_verdict_slots (p : PeerSync) (was_in_flight : Bool)
    (verdict : Except BlockRejection Acceptance) : (p.block_verdict was_in_flight verdict).2.slots = p.slots := by
  unfold block_verdict
  split <;> rfl

theorem accept_headers_slots (p : PeerSync) (cs : Chainstate) (acc : Accepted) (now : ℕ)
    (headers : List BlockHeader) :
    (p.accept_headers cs acc now headers).2.1.slots = p.slots := by
  induction headers generalizing p cs acc with
  | nil => rfl
  | cons header headers ih =>
    rw [accept_headers]
    split
    · rfl
    · rw [ih]
      rfl

theorem next_low_work_request_slots (p : PeerSync) (cs : Chainstate) (state : HeadersSyncState) (request_more : Bool)
    (at_ : ℕ) : (p.next_low_work_request cs state request_more at_).2.slots = p.slots := by
  unfold next_low_work_request
  split <;> rfl

theorem released_outcome_slots (sync_continuation : Option Message) (full_page is_final : Bool) (at_ : ℕ)
    (acc : Accepted) (p : PeerSync) (cs : Chainstate) :
    (released_outcome sync_continuation full_page is_final at_ acc p cs).2.slots = p.slots := by
  unfold released_outcome
  dsimp only
  split <;> rfl

theorem continue_slots (p : PeerSync) (cs : Chainstate) (headers : List BlockHeader) (now at_ : ℕ) :
    (p.continue_low_work_sync cs headers now at_).2.1.slots = p.slots := by
  unfold continue_low_work_sync
  split
  · rfl
  · next state _ =>
    dsimp only
    generalize hpage : state.process_next_headers headers (headers.length == MAX_HEADERS_RESULTS) = page
    have hq : (if page.2.is_final = true then
          (({ p with headers_sync := none } : PeerSync).next_low_work_request cs page.2 page.1.request_more at_).2
        else { (({ p with headers_sync := none } :
          PeerSync).next_low_work_request cs page.2 page.1.request_more at_).2
          with headers_sync := some page.2 }).slots = p.slots := by
      split
      · exact next_low_work_request_slots _ _ _ _ _
      · exact next_low_work_request_slots _ _ _ _ _
    split
    · exact hq
    have haccept := accept_headers_slots (if page.2.is_final = true then
        (({ p with headers_sync := none } : PeerSync).next_low_work_request cs page.2 page.1.request_more at_).2
      else { (({ p with headers_sync := none } :
        PeerSync).next_low_work_request cs page.2 page.1.request_more at_).2
        with headers_sync := some page.2 }) cs ⟨0, 0, []⟩ now page.1.pow_validated_headers
    split
    · next hrun =>
      rw [hrun] at haccept
      exact haccept.trans hq
    · next acc q cs' hrun =>
      rw [hrun] at haccept
      exact (released_outcome_slots _ _ page.2.is_final _ acc q cs').trans (haccept.trans hq)

theorem try_slots (p : PeerSync) (network : Network) (cs : Chainstate) (params : Params) (headers : List BlockHeader)
    (now at_ : ℕ) (salt : List UInt8) :
    (p.try_low_work_headers_sync network cs params headers now at_ salt).2.slots = p.slots := by
  unfold try_low_work_headers_sync
  split
  · rfl
  dsimp only
  split
  · rfl
  split
  · rfl
  · split
    · exact next_low_work_request_slots _ _ _ _ _
    · exact next_low_work_request_slots _ _ _ _ _

theorem on_headers_slots (p : PeerSync) (network : Network) (cs : Chainstate) (headers : List BlockHeader) (now : ℕ)
    (allow_low_work : Bool) (at_ : ℕ) (salt : List UInt8) :
    (p.on_headers network cs headers now allow_low_work at_ salt).2.1.slots = p.slots := by
  unfold on_headers
  dsimp only
  split
  · next first last _ _ =>
    split
    · rfl
    split
    · rfl
    split
    · exact continue_slots _ _ _ _ _
    split
    · rfl
    split
    · rfl
    have hgate : ∀ known : Bool,
      (if known = true then (none, ({ p with headers_in_flight := none } : PeerSync))
        else ({ p with headers_in_flight := none } :
          PeerSync).try_low_work_headers_sync network cs cs.params
          headers now at_ salt).2.slots = p.slots := by
      intro known
      split
      · rfl
      · exact try_slots _ _ _ _ _ _ _ _
    split
    · next hrun =>
      have hq := hgate (is_ancestor_of_best_header_or_tip cs last.hash)
      rw [hrun] at hq
      exact hq
    · next q hrun =>
      have hq := hgate (is_ancestor_of_best_header_or_tip cs last.hash)
      rw [hrun] at hq
      have haccept := accept_headers_slots q cs ⟨0, 0, []⟩ now headers
      split
      · next hacc =>
        rw [hacc] at haccept
        exact haccept.trans hq
      · next hacc =>
        rw [hacc] at haccept
        refine Eq.trans ?_ (haccept.trans hq)
        unfold page_outcome
        dsimp only
        split <;> rfl
  · rfl

omit [Platform] in
theorem want_advice_slots (p : PeerSync) (hashes : List BlockHash) : (p.want_advice hashes).2.slots = p.slots := by
  induction hashes generalizing p with
  | nil => rfl
  | cons hash hashes ih =>
    rw [want_advice]
    split
    · exact ih p
    · exact ih _

theorem apply_exact (h : Exact p) (op : PeerOp) :
    Exact (op.apply p).2 ∧ Unasked p (op.apply p).1 := by
  have hquiet : ∀ {q : PeerSync}, Exact q → Exact q ∧ Unasked p none := fun hq =>
    ⟨hq, fun sent hsent => by cases hsent⟩
  cases op with
  | request_headers cs at_ => exact hquiet (h.of_slots rfl)
  | resume_headers cs at_ =>
    apply hquiet
    apply h.of_slots
    change (p.resume_headers cs at_).2.slots = _
    unfold resume_headers
    split <;> rfl
  | on_headers network cs headers now allow_low_work at_ salt =>
    exact hquiet (h.of_slots (on_headers_slots _ _ _ _ _ _ _ _))
  | on_inv cs contains_hash invs global_free at_ => exact on_inv_asked h cs contains_hash invs global_free at_
  | drain_pending cs global_free at_ => exact drain_asked h cs global_free at_
  | want_blocks cs hashes at_ => exact want_asked h cs hashes ∅ at_
  | want_blocks_excluding cs hashes exclude at_ => exact want_asked h cs hashes exclude at_
  | want_advice hashes => exact hquiet (h.of_slots (want_advice_slots p hashes))
  | want_one hash at_ => exact want_one_asked h hash at_
  | on_block cs block now => exact hquiet ((h.release _).of_slots (block_verdict_slots _ _ _))
  | on_block_for_external_validation block => exact hquiet (h.captured block)
  | on_prepared_block cs prepared now => exact hquiet ((h.release _).of_slots (block_verdict_slots _ _ _))
  | on_tx txid => exact hquiet (h.release txid)
  | on_notfound invs => exact hquiet (h.on_notfound invs)
  | release_older_than timeout at_ => exact hquiet (h.release_all _)
  | release_in_flight => exact hquiet h.release_in_flight

theorem Reachable.exact (h : Reachable p) : Exact p := by
  induction h with
  | new => exact .new
  | step h op ih => exact (apply_exact ih op).1

inductive Delivery where
  | block (cs : Chainstate) (block : Block) (now : ℕ)
  | prepared_block (cs : Chainstate) (prepared : PreparedBlock) (now : ℕ)
  | tx (tx : Transaction)

def Delivery.op : Delivery → PeerOp
  | .block cs b now => .on_block cs b now
  | .prepared_block cs prepared now => .on_prepared_block cs prepared now
  | .tx t => .on_tx (Platform.txid t)

def Delivery.id : Delivery → BlockHash
  | .block _ b _ => b.block_hash
  | .prepared_block _ prepared _ => prepared.block.block_hash
  | .tx t => Platform.txid t

def Delivery.announced_by : Delivery → List BlockHash
  | .block _ b _ => [b.block_hash]
  | .prepared_block _ prepared _ => [prepared.block.block_hash]
  | .tx t => [Platform.txid t, Platform.wtxid t]

omit [Platform] in
theorem hashes_of_slots (h : q.slots = p.slots) : q.hashes = p.hashes :=
  congrArg (fun slots => slots.1.map Prod.fst) h

theorem delivered_hashes (p : PeerSync) (d : Delivery) : (d.op.apply p).2.hashes = (p.release d.id).2.hashes := by
  cases d with
  | block cs block now => exact hashes_of_slots (block_verdict_slots _ _ _)
  | prepared_block cs prepared now => exact hashes_of_slots (block_verdict_slots _ _ _)
  | tx tx => rfl

/-- The sets and the requests are exact; a delivery frees the slot its object was announced under just where that
is the object's own hash. -/
theorem slots_exact (h : Reachable p) : Exact p ∧ (∀ (op : PeerOp) sent, (op.apply p).1 = some (.GetData sent) →
        (sent.map InvVector.hash).Nodup ∧ ∀ inv ∈ sent, inv.hash ∉ p.hashes) ∧
      ∀ (d : Delivery), ∀ announced ∈ d.announced_by, announced ∈ p.hashes →
        (announced ∉ (d.op.apply p).2.hashes ↔ announced = d.id) := by
  refine ⟨h.exact, fun op sent hsent => (apply_exact h.exact op).2 sent hsent, fun d announced _ hm => ?_⟩
  rw [delivered_hashes]
  exact not_mem_release h.exact hm

end

section

@[reducible] def Platform.sample_witnesses : Platform :=
  { Platform.sample with
    wtxid := fun tx => BitVec.ofNat 256
      (tx.lock_time + 2 ^ 32 * (tx.inputs.map fun input => input.witness.length).sum) }

attribute [local instance] Platform.sample_witnesses

def sample_spend : Transaction := ⟨2, [⟨sample_outpoint, [], 0, [[1]]⟩], [⟨1, []⟩], 7⟩

def sample_owing : PeerSync :=
  ((PeerOp.on_inv (Chainstate.new sample_params)
    (fun _ => false) [⟨.Wtx, Platform.wtxid sample_spend⟩] 1024 0).apply new).2

theorem slots_exact_owing : Exact sample_owing ∧
    (Platform.wtxid sample_spend ∉ ((Delivery.tx sample_spend).op.apply sample_owing).2.hashes ↔
      Platform.wtxid sample_spend = Platform.txid sample_spend) := by
  have hslots := slots_exact (p := sample_owing) (.step .new _)
  exact ⟨hslots.1, hslots.2.2 (.tx sample_spend) _ (by simp [Delivery.announced_by]) (by decide)⟩

theorem wtxid_slot_kept : ¬∀ p : PeerSync, Reachable p → ∀ (d : Delivery), ∀ announced ∈ d.announced_by,
    announced ∈ p.hashes → announced ∉ (d.op.apply p).2.hashes := by
  intro hfree
  have hkept : Platform.wtxid sample_spend ∈ ((Delivery.tx sample_spend).op.apply sample_owing).2.hashes := by
    decide
  apply hfree sample_owing (.step .new _) (.tx sample_spend) _ _ _ hkept
  · simp [Delivery.announced_by]
  · decide

end

end PeerSync

end AvilaNode
