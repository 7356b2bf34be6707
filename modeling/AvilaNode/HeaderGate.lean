import AvilaNode.HeaderLinks
import AvilaNode.HeadersSyncSafe
import AvilaNode.PeerSync

/-! Which headers a peer's pages add to the tree. -/

namespace AvilaNode

open Layers

section

variable [Platform]

variable {headers : List BlockHeader}

namespace Chainstate

theorem accept_header_cases (cs : Chainstate) (header : BlockHeader) (now : ℕ) :
    (cs.tree.contains header.hash = true ∧ ∃ height, cs.accept_header header now = (.ok height, cs)) ∨
      (∃ rej, cs.accept_header header now = (.error rej, cs)) ∨
      (cs.tree.contains header.hash = false ∧ ∃ parent chainwork, cs.accept_header header now
        = (.ok (parent.height + 1), { cs with tree := cs.tree.with_node header parent chainwork })) := by
  unfold accept_header
  rcases hi : cs.tree.insert header now with ⟨status, tree⟩
  cases hg : cs.tree.get header.hash with
  | some existing =>
    left
    rw [HeaderTree.insert, hg] at hi
    cases hi
    exact ⟨by rw [HeaderTree.contains, ← HeaderTree.get, hg]; rfl, _, rfl⟩
  | none =>
    right
    rcases cs.tree.insert_cases header now with ⟨hsame, hadded⟩ | ⟨parent, chainwork, -, hadd⟩
    · left
      rw [hi] at hsame hadded
      subst hsame
      cases status with
      | error e => exact ⟨_, rfl⟩
      | ok status =>
        exfalso
        cases status with
        | Added height => exact hadded height rfl
        | AlreadyKnown height =>
          have hstatus := congrArg Prod.fst hi
          rw [HeaderTree.insert, hg] at hstatus
          unfold HeaderTree.insert_node at hstatus
          dsimp only at hstatus
          repeat' (split at hstatus)
          all_goals cases hstatus
    · right
      rw [hi] at hadd
      cases hadd
      exact ⟨by rw [HeaderTree.contains, ← HeaderTree.get, hg]; rfl, parent, chainwork, rfl⟩

structure Grown (headers : List BlockHeader) (s t : Chainstate) : Prop where
  rest : t = { s with tree := t.tree }
  old : ∀ hash node, s.tree.get hash = some node → t.tree.get hash = some node
  added : ∀ hash node, s.tree.get hash = none → t.tree.get hash = some node →
    node.header ∈ headers ∧ node.header.hash = hash

theorem Grown.refl (headers : List BlockHeader) (s : Chainstate) : Grown headers s s :=
  ⟨rfl, fun _ _ h => h, fun _ _ h hs => by rw [h] at hs; cases hs⟩

theorem Grown.with_node {s : Chainstate} {header : BlockHeader} (hm : header ∈ headers)
    (hnew : s.tree.contains header.hash = false) (parent : HeaderNode) (chainwork : ℕ) :
    Grown headers s { s with tree := s.tree.with_node header parent chainwork } := by
  have hget : ∀ hash, (s.tree.with_node header parent chainwork).get hash = if hash = header.hash then
      some ⟨header, parent.height + 1, chainwork, 0, 0, (s.tree.get_ancestor header.prev_block_hash
        (get_skip_height (parent.height + 1)).toNat).map HeaderNode.hash⟩ else s.tree.get hash := by
    intro hash
    exact lookup_insert_eq _ _ _ _
  refine ⟨rfl, fun hash node h => ?_, fun hash node h hn => ?_⟩
  · dsimp only
    rw [hget, if_neg, h]
    rintro rfl
    rw [HeaderTree.contains, ← HeaderTree.get, h] at hnew
    cases hnew
  · dsimp only at hn
    rw [hget] at hn
    split at hn
    · next heq =>
      cases hn
      exact ⟨hm, heq.symm⟩
    · rw [h] at hn
      cases hn

theorem Grown.trans {s t u : Chainstate} (h : Grown headers s t) (h' : Grown headers t u) :
    Grown headers s u := by
  refine ⟨?_, fun hash node hs => h'.old _ _ (h.old _ _ hs), fun hash node hs hu => ?_⟩
  · rw [h'.rest, h.rest]
  · cases ht : t.tree.get hash with
    | none => exact h'.added hash node ht hu
    | some m =>
      have hm := h'.old hash m ht
      rw [hu] at hm
      cases hm
      exact h.added hash node hs ht

end Chainstate

namespace PeerSync

open Chainstate HeadersSyncState

structure Took (cs : Chainstate) (handed : List BlockHeader)
    (r : Except SyncError HeadersOutcome × PeerSync × Chainstate) : Prop where
  grown : Grown handed cs r.2.2
  ok : ∀ outcome, r.1 = .ok outcome → outcome.added = 0 → r.2.2 = cs
  error : ∀ e, r.1 = .error e → (∀ rej, e ≠ .InvalidHeader (.Rejected rej)) → r.2.2 = cs

variable {p : PeerSync}

variable {cs : Chainstate}

theorem Took.nothing {res : Except SyncError HeadersOutcome} (handed : List BlockHeader) :
    Took cs handed (res, p, cs) :=
  ⟨Grown.refl _ cs, fun _ _ _ => rfl, fun _ _ _ => rfl⟩

theorem accept_headers_spec (p : PeerSync) (cs : Chainstate) (acc : Accepted) (now : ℕ) (headers : List BlockHeader) :
    let r := p.accept_headers cs acc now headers
    Grown headers cs r.2.2 ∧ r.2.1.headers_sync = p.headers_sync ∧
      (∀ out, r.1 = .ok out → acc.added ≤ out.added ∧ (out.added = acc.added → r.2.2 = cs)) ∧
      (∀ e, r.1 = .error e → ∃ rej, e = .InvalidHeader (.Rejected rej)) := by
  induction headers generalizing p cs acc with
  | nil =>
    refine ⟨Grown.refl _ cs, rfl, fun out h => ?_, fun e h => ?_⟩
    · cases h
      exact ⟨le_rfl, fun _ => rfl⟩
    · cases h
  | cons header headers ih =>
    have hmono : ∀ {s t : Chainstate}, Grown headers s t → Grown (header :: headers) s t := fun h =>
      ⟨h.rest, h.old, fun hash node hs ht => ⟨List.mem_cons_of_mem _ (h.added hash node hs ht).1,
        (h.added hash node hs ht).2⟩⟩
    rw [accept_headers]
    rcases cs.accept_header_cases header now with ⟨hknown, height, heq⟩ | ⟨rej, heq⟩ | ⟨hnew, parent, chainwork, heq⟩
    · rw [heq, hknown]
      obtain ⟨hg, hs, ho, he⟩ := ih { p with headers_applied := p.headers_applied + 1 } cs
        { acc with known := acc.known + 1 }
      exact ⟨hmono hg, hs, ho, he⟩
    · rw [heq]
      refine ⟨Grown.refl _ cs, rfl, fun out h => ?_, fun e h => ⟨rej, ?_⟩⟩
      · cases h
      · cases h
        rfl
    · rw [heq, hnew]
      obtain ⟨hg, hs, ho, he⟩ := ih { p with headers_applied := p.headers_applied + 1 }
        { cs with tree := cs.tree.with_node header parent chainwork }
        { acc with added := acc.added + 1, fetchable := acc.fetchable ++ [header.hash] }
      refine ⟨(Grown.with_node List.mem_cons_self hnew parent chainwork).trans (hmono hg), hs, fun out h => ?_, he⟩
      obtain ⟨hle, -⟩ := ho out h
      dsimp only at hle
      exact ⟨by omega, fun h => by omega⟩

theorem Took.of_accept (p : PeerSync) (cs : Chainstate) (now : ℕ) (headers : List BlockHeader)
    {f : Accepted → PeerSync → Chainstate → HeadersOutcome × PeerSync}
    (hadded : ∀ acc q cs', (f acc q cs').1.added = acc.added)
    (hsync : ∀ acc q cs', (f acc q cs').2.headers_sync = q.headers_sync) :
    let r : Except SyncError HeadersOutcome × PeerSync × Chainstate :=
      match p.accept_headers cs ⟨0, 0, []⟩ now headers with
      | (.error e, p, cs) => (.error e, p, cs)
      | (.ok acc, p, cs) => (.ok (f acc p cs).1, (f acc p cs).2, cs)
    Took cs headers r ∧ r.2.1.headers_sync = p.headers_sync := by
  obtain ⟨hg, hs, ho, he⟩ := accept_headers_spec p cs ⟨0, 0, []⟩ now headers
  rcases hrun : p.accept_headers cs ⟨0, 0, []⟩ now headers with ⟨res, q, cs'⟩
  rw [hrun] at hg hs ho he
  cases res with
  | error e =>
    refine ⟨⟨hg, fun outcome h => ?_, fun e' h hrej => ?_⟩, hs⟩
    · cases h
    · cases h
      obtain ⟨rej, rfl⟩ := he _ rfl
      exact absurd rfl (hrej rej)
  | ok acc =>
    refine ⟨⟨hg, fun outcome h hzero => ?_, fun e' h => ?_⟩, (hsync _ _ _).trans hs⟩
    · cases h
      exact (ho acc rfl).2 ((hadded _ _ _).symm.trans hzero)
    · cases h

inductive Passed (p : PeerSync) (cs : Chainstate) (headers : List BlockHeader) : List BlockHeader → Prop
  | nothing : Passed p cs headers []
  | known {last : BlockHeader} (hlast : headers.getLast? = some last)
      (known : is_ancestor_of_best_header_or_tip cs last.hash = true) : Passed p cs headers headers
  | work {first : BlockHeader} {fork : HeaderNode} (hfirst : headers.head? = some first)
      (hfork : cs.tree.get first.prev_block_hash = some fork)
      (work : anti_dos_work_threshold cs cs.params ≤ fork.chainwork + batch_work headers) :
        Passed p cs headers headers
  | released {state : HeadersSyncState} (sync : p.headers_sync = some state) (continuous : Continuous headers) :
      Passed p cs headers
        (state.process_next_headers headers (headers.length == MAX_HEADERS_RESULTS)).1.pow_validated_headers

theorem continuous_iff (headers : List BlockHeader) : continuous headers = true ↔ Continuous headers := by
  induction headers with
  | nil => exact iff_of_true rfl List.isChain_nil
  | cons first headers ih =>
    cases headers with
    | nil => exact iff_of_true rfl (.singleton _)
    | cons second headers =>
      rw [continuous, Bool.and_eq_true, beq_iff_eq, ih]
      exact (List.isChain_cons_cons (R := fun a b : BlockHeader => b.prev_block_hash = a.hash)).symm

omit [Platform] in
theorem checked_add_getD_le (a b : ℕ) : (Work.checked_add a b).getD (2 ^ 256 - 1) ≤ a + b := by
  unfold Work.checked_add
  split
  · exact le_rfl
  · rw [Option.getD_none]
    omega

omit [Platform] in
theorem claimed_work_le (work : ℕ) (headers : List BlockHeader) :
    claimed_work work headers ≤ work + batch_work headers := by
  induction headers generalizing work with
  | nil => exact le_rfl
  | cons header headers ih =>
    have hone := checked_add_getD_le work (Work.from_compact header.bits)
    have hrest := ih ((Work.checked_add work (Work.from_compact header.bits)).getD (2 ^ 256 - 1))
    rw [claimed_work] at hrest
    rw [claimed_work, List.foldl_cons, batch_work, List.map_cons, List.sum_cons]
    rw [batch_work] at hrest
    omega

@[simp] theorem next_low_work_request_sync (p : PeerSync) (cs : Chainstate) (state : HeadersSyncState)
    (request_more : Bool) (at_ : ℕ) :
    (p.next_low_work_request cs state request_more at_).2.headers_sync = p.headers_sync := by
  unfold next_low_work_request
  split <;> rfl

def kept (state : HeadersSyncState) : Option HeadersSyncState := if state.is_final then none else some state

theorem released_outcome_sync {sync_continuation : Option Message} {full_page is_final : Bool} {at_ : ℕ}
    {acc : Accepted} :
    (released_outcome sync_continuation full_page is_final at_ acc p cs).2.headers_sync = p.headers_sync := by
  unfold released_outcome
  dsimp only
  split <;> rfl

theorem page_outcome_sync {at_ : ℕ} {acc : Accepted} :
    (page_outcome headers at_ acc p cs).2.headers_sync = p.headers_sync := by
  unfold page_outcome
  dsimp only
  split <;> rfl

theorem continue_spec {state : HeadersSyncState} (hsync : p.headers_sync = some state) (cs : Chainstate)
    (headers : List BlockHeader) (now at_ : ℕ) :
    let page := state.process_next_headers headers (headers.length == MAX_HEADERS_RESULTS)
    let r := p.continue_low_work_sync cs headers now at_
    Took cs page.1.pow_validated_headers r ∧ r.2.1.headers_sync = kept page.2 := by
  intro page r
  have hr : r = p.continue_low_work_sync cs headers now at_ := rfl
  unfold continue_low_work_sync at hr
  rw [hsync] at hr
  dsimp only at hr
  have hkept : ∀ q : PeerSync, q.headers_sync = none →
      (if page.2.is_final = true then q else { q with headers_sync := some page.2 }).headers_sync = kept page.2 := by
    intro q hq
    unfold kept
    split
    · exact hq
    · rfl
  split at hr
  · rw [hr]
    exact ⟨.nothing _, hkept _ (by simp)⟩
  obtain ⟨ht, hs⟩ := Took.of_accept
    (if page.2.is_final = true then
      (({ p with headers_sync := none } : PeerSync).next_low_work_request cs page.2 page.1.request_more at_).2
    else { (({ p with headers_sync := none } : PeerSync).next_low_work_request cs page.2 page.1.request_more at_).2
      with headers_sync := some page.2 }) cs now page.1.pow_validated_headers
    (f := released_outcome
      (({ p with headers_sync := none } : PeerSync).next_low_work_request cs page.2 page.1.request_more at_).1
      (headers.length == MAX_HEADERS_RESULTS) page.2.is_final at_) (fun _ _ _ => rfl)
      (fun _ _ _ => released_outcome_sync)
  · rw [hr]
    exact ⟨ht, hs.trans (hkept _ (by simp))⟩

def Opened (start : HeadersSyncState) : Prop :=
  ∃ (network : Network) (cs : Chainstate) (fork : HeaderNode) (now : ℕ) (salt : List UInt8),
    start = .new cs.tree fork cs.params (.for_network network) (anti_dos_work_threshold cs cs.params) now salt

theorem try_spec (p : PeerSync) (network : Network) (cs : Chainstate) (headers : List BlockHeader) (now at_ : ℕ)
    (salt : List UInt8) :
    let r := p.try_low_work_headers_sync network cs cs.params headers now at_ salt
    (∀ outcome, r.1 = some outcome → outcome.added = 0) ∧
      (r.1 = none → r.2 = p ∧ ∀ first fork, headers.head? = some first →
        cs.tree.get first.prev_block_hash = some fork →
        anti_dos_work_threshold cs cs.params ≤ fork.chainwork + batch_work headers) ∧
      (r.2.headers_sync = p.headers_sync ∨
        ∃ start, Opened start ∧ r.2.headers_sync = some (start.process_next_headers headers true).2
          ∧ (start.process_next_headers headers true).2.is_final = false) := by
  intro r
  have hr : r = p.try_low_work_headers_sync network cs cs.params headers now at_ salt := rfl
  unfold try_low_work_headers_sync at hr
  dsimp only at hr
  split at hr
  · next hnone =>
    rw [hr]
    refine ⟨fun _ h => ?_, fun _ => ⟨rfl, fun first fork hfirst hfork => ?_⟩, Or.inl rfl⟩
    · cases h
    · rw [hfirst, Option.bind_some, hfork] at hnone
      cases hnone
  · next fork hfork =>
    split at hr
    · next hwork =>
      rw [hr]
      refine ⟨fun _ h => ?_, fun _ => ⟨rfl, fun first fork' hfirst hfork' => ?_⟩, Or.inl rfl⟩
      · cases h
      · rw [hfirst, Option.bind_some, hfork'] at hfork
        cases hfork
        have htotal := checked_add_getD_le fork.chainwork (claimed_work 0 headers)
        have hclaim := claimed_work_le 0 headers
        omega
    · split at hr
      · rw [hr]
        refine ⟨fun _ h => ?_, fun h => ?_, Or.inl rfl⟩
        · cases h
          rfl
        · cases h
      · generalize hs : HeadersSyncState.new cs.tree fork cs.params (.for_network network)
          (anti_dos_work_threshold cs cs.params) now salt = start at hr
        rw [hr]
        refine ⟨fun _ h => ?_, fun h => ?_, ?_⟩
        · cases h
          rfl
        · cases h
        · cases hfinal : (start.process_next_headers headers true).2.is_final with
          | true => exact Or.inl (next_low_work_request_sync _ _ _ _ _)
          | false => exact Or.inr ⟨start, ⟨network, cs, fork, now, salt, hs.symm⟩, rfl, hfinal⟩

inductive Synced (p : PeerSync) (headers : List BlockHeader) : Option HeadersSyncState → Prop
  | ended : Synced p headers none
  | same : Synced p headers p.headers_sync
  | opened {start : HeadersSyncState} (none : p.headers_sync = none) (opened : Opened start)
      (continuous : Continuous headers) (live : (start.process_next_headers headers true).2.is_final = false) :
      Synced p headers (some (start.process_next_headers headers true).2)
  | continued {state : HeadersSyncState} {full : Bool} (sync : p.headers_sync = some state)
      (continuous : Continuous headers) (live : (state.process_next_headers headers full).2.is_final = false) :
      Synced p headers (some (state.process_next_headers headers full).2)

theorem on_headers_spec (p : PeerSync) (network : Network) (cs : Chainstate) (headers : List BlockHeader) (now : ℕ)
    (allow_low_work : Bool) (at_ : ℕ) (salt : List UInt8) :
    let r := p.on_headers network cs headers now allow_low_work at_ salt
    (∃ handed, Passed p cs headers handed ∧ Took cs handed r) ∧ Synced p headers r.2.1.headers_sync := by
  intro r
  have hr : r = p.on_headers network cs headers now allow_low_work at_ salt := rfl
  unfold on_headers at hr
  dsimp only at hr
  split at hr
  · next first last hfirst hlast =>
    split at hr
    · rw [hr]
      exact ⟨⟨[], .nothing, .nothing _⟩, .same⟩
    split at hr
    · rw [hr]
      exact ⟨⟨[], .nothing, .nothing _⟩, .same⟩
    · next hcont =>
      have hc : Continuous headers := by
        rw [Bool.not_eq_true, Bool.not_eq_false'] at hcont
        exact (continuous_iff headers).mp hcont
      split at hr
      · next hsome =>
        obtain ⟨state, hstate⟩ := Option.isSome_iff_exists.mp hsome
        obtain ⟨ht, hs⟩ := continue_spec (p := { p with headers_in_flight := none }) hstate cs headers now at_
        rw [← hr] at ht hs
        refine ⟨⟨_, .released hstate hc, ht⟩, ?_⟩
        rw [hs, kept]
        split
        · exact .ended
        · next hlive => exact .continued hstate hc (Bool.eq_false_of_not_eq_true hlive)
      · next hnone =>
        have hsync : p.headers_sync = none := Option.not_isSome_iff_eq_none.mp hnone
        split at hr
        · rw [hr]
          exact ⟨⟨[], .nothing, .nothing _⟩, .same⟩
        · next hknown =>
          split at hr
          · rw [hr]
            exact ⟨⟨[], .nothing, .nothing _⟩, .same⟩
          · cases halready : is_ancestor_of_best_header_or_tip cs last.hash with
            | true =>
              rw [halready, if_pos rfl] at hr
              obtain ⟨ht, hs⟩ := Took.of_accept ({ p with headers_in_flight := none } : PeerSync) cs now headers
                (f := page_outcome headers at_) (fun _ _ _ => rfl) (fun _ _ _ => page_outcome_sync)
              rw [hr]
              exact ⟨⟨headers, .known hlast halready, ht⟩, hs.symm ▸ .same⟩
            | false =>
              rw [halready] at hr
              obtain ⟨houtcome, hwork, hs⟩ :=
                try_spec ({ p with headers_in_flight := none } : PeerSync) network cs headers
                now at_ salt
              have hopened : Synced p headers (({ p with headers_in_flight := none } :
                  PeerSync).try_low_work_headers_sync network cs cs.params headers now at_ salt).2.headers_sync := by
                rcases hs with hs | ⟨start, hstart, hs, hlive⟩
                · rw [hs]
                  exact .same
                · rw [hs]
                  exact .opened hsync hstart hc hlive
              rcases htry : ({ p with headers_in_flight := none } : PeerSync).try_low_work_headers_sync network cs
                cs.params headers now at_ salt with ⟨_ | outcome, q⟩
              · rw [htry] at hwork hopened
                rw [if_neg Bool.false_ne_true, htry] at hr
                obtain ⟨rfl, hclaim⟩ := hwork rfl
                have hfork : ∃ fork, cs.tree.get first.prev_block_hash = some fork := by
                  rw [Bool.not_eq_true, Bool.not_eq_false'] at hknown
                  exact Option.isSome_iff_exists.mp hknown
                obtain ⟨fork, hfork⟩ := hfork
                obtain ⟨ht, hs⟩ := Took.of_accept ({ p with headers_in_flight := none } : PeerSync) cs now headers
                  (f := page_outcome headers at_) (fun _ _ _ => rfl) (fun _ _ _ => page_outcome_sync)
                rw [hr]
                exact ⟨⟨headers, .work hfirst hfork (hclaim first fork hfirst hfork), ht⟩, hs.symm ▸ .same⟩
              · rw [htry] at hopened
                rw [if_neg Bool.false_ne_true, htry] at hr
                rw [hr]
                exact ⟨⟨[], .nothing, .nothing _⟩, hopened⟩
  · rw [hr]
    exact ⟨⟨[], .nothing, .nothing _⟩, .ended⟩

def Tracked (p : PeerSync) : Prop :=
  ∀ state, p.headers_sync = some state → ∃ start history, Opened start ∧ Fed start state history ∧
    state.is_final = false

theorem Synced.tracked {q : PeerSync} (h : Tracked p) (hs : Synced p headers q.headers_sync) : Tracked q := by
  intro state hstate
  rw [hstate] at hs
  generalize hsome : some state = sync at hs
  cases hs with
  | ended => cases hsome
  | same => exact h state hsome.symm
  | opened none opened continuous live =>
    cases hsome
    exact ⟨_, _, opened, .next .new headers true continuous, live⟩
  | continued sync continuous live =>
    cases hsome
    obtain ⟨start, history, hopened, hfed, -⟩ := h _ sync
    exact ⟨start, _, hopened, .next hfed headers _ continuous, live⟩

omit [Platform] in
@[simp] theorem release_sync (p : PeerSync) (hash : BlockHash) : (p.release hash).2.headers_sync =
    p.headers_sync := by
  by_cases h : (p.in_flight.any fun slot => slot.1 == hash) = true <;> simp [release, clear_in_flight, h]

theorem on_inv_sync (p : PeerSync) (cs : Chainstate) (contains_hash : BlockHash → Bool) (invs : List InvVector)
    (global_free at_ : ℕ) : (p.on_inv cs contains_hash invs global_free at_).2.headers_sync = p.headers_sync := by
  have hstep : ∀ (free : ℕ) (acc : PeerSync × List InvVector) (inv : InvVector),
      (on_inv_step cs contains_hash free acc inv).1.headers_sync = acc.1.headers_sync := by
    intro free acc inv
    unfold on_inv_step
    repeat' split
    all_goals rfl
  have hfold : ∀ (free : ℕ) (acc : PeerSync × List InvVector),
      (invs.foldl (on_inv_step cs contains_hash free) acc).1.headers_sync = acc.1.headers_sync := by
    intro free acc
    induction invs generalizing acc with
    | nil => rfl
    | cons inv invs ih => rw [List.foldl_cons, ih, hstep]
  exact hfold _ _

theorem drain_loop_sync (cs : Chainstate) (free at_ : ℕ) (pending : List BlockHash) (p : PeerSync)
    (want : List InvVector) : (drain_loop cs free at_ pending p want).1.headers_sync = p.headers_sync := by
  induction pending generalizing p want with
  | nil => rfl
  | cons hash pending ih =>
    rw [drain_loop]
    dsimp only
    split
    · split
      · rw [ih]
      · rw [ih]
        rfl
    · rfl

theorem want_loop_sync (cs : Chainstate) (exclude : Finset BlockHash) (free at_ : ℕ) (hashes : List BlockHash)
    (p : PeerSync) (want : List InvVector) :
    (want_loop cs exclude free at_ hashes p want).1.headers_sync = p.headers_sync := by
  induction hashes generalizing p want with
  | nil => rfl
  | cons hash hashes ih =>
    rw [want_loop]
    split
    · rfl
    · split
      · exact ih _ _
      · rw [ih]
        rfl

theorem want_excluding_sync (p : PeerSync) (cs : Chainstate) (hashes : List BlockHash) (exclude : Finset BlockHash)
    (at_ : ℕ) : (p.want_blocks_excluding cs hashes exclude at_).2.headers_sync = p.headers_sync := by
  unfold want_blocks_excluding
  split
  · rfl
  · exact want_loop_sync _ _ _ _ _ _ _

omit [Platform] in
theorem want_advice_sync (p : PeerSync) (hashes : List BlockHash) :
    (p.want_advice hashes).2.headers_sync = p.headers_sync := by
  induction hashes generalizing p with
  | nil => rfl
  | cons hash hashes ih =>
    rw [want_advice]
    split
    · exact ih p
    · exact ih _

omit [Platform] in
theorem block_verdict_sync (p : PeerSync) (was_in_flight : Bool) (verdict : Except BlockRejection Acceptance) :
    (p.block_verdict was_in_flight verdict).2.headers_sync = p.headers_sync := by
  unfold block_verdict
  split <;> rfl

omit [Platform] in
theorem on_notfound_sync (p : PeerSync) (invs : List InvVector) : (p.on_notfound invs).2.headers_sync =
    p.headers_sync := by
  induction invs generalizing p with
  | nil => rfl
  | cons inv invs ih =>
    rw [on_notfound]
    rw [ih, release_sync]

omit [Platform] in
theorem release_all_sync (p : PeerSync) (hashes : List BlockHash) :
    (hashes.foldl (fun p hash => (p.release hash).2) p).headers_sync = p.headers_sync := by
  induction hashes generalizing p with
  | nil => rfl
  | cons hash hashes ih => rw [List.foldl_cons, ih, release_sync]

theorem Reachable.tracked (h : Reachable p) : Tracked p := by
  induction h with
  | new => exact fun state hstate => by cases hstate
  | @step p h op ih =>
    have hsame : ∀ {q : PeerSync}, q.headers_sync = p.headers_sync → Tracked q := fun hq state hstate =>
      ih state (hq ▸ hstate)
    cases op with
    | request_headers cs at_ => exact hsame rfl
    | resume_headers cs at_ =>
      apply hsame
      change (p.resume_headers cs at_).2.headers_sync = _
      unfold resume_headers
      split <;> rfl
    | on_headers network cs headers now allow_low_work at_ salt =>
      exact Synced.tracked ih (on_headers_spec p network cs headers now allow_low_work at_ salt).2
    | on_inv cs contains_hash invs global_free at_ => exact hsame (on_inv_sync _ _ _ _ _ _)
    | drain_pending cs global_free at_ =>
      apply hsame
      change (p.drain_pending cs global_free at_).2.headers_sync = _
      unfold drain_pending
      dsimp only
      split
      · rfl
      · exact drain_loop_sync _ _ _ _ _ _
    | want_blocks cs hashes at_ => exact hsame (want_excluding_sync _ _ _ _ _)
    | want_blocks_excluding cs hashes exclude at_ => exact hsame (want_excluding_sync _ _ _ _ _)
    | want_advice hashes => exact hsame (want_advice_sync _ _)
    | want_one hash at_ =>
      apply hsame
      change (p.want_one hash at_).2.headers_sync = _
      unfold want_one
      split
      · rfl
      · split <;> rfl
    | on_block cs block now => exact hsame ((block_verdict_sync _ _ _).trans (release_sync _ _))
    | on_block_for_external_validation block => exact hsame (release_sync _ _)
    | on_prepared_block cs prepared now => exact hsame ((block_verdict_sync _ _ _).trans (release_sync _ _))
    | on_tx txid => exact hsame (release_sync _ _)
    | on_notfound invs => exact hsame (on_notfound_sync _ _)
    | release_older_than timeout at_ => exact hsame (release_all_sync _ _)
    | release_in_flight => exact hsame rfl

theorem header_tree_gate (h : Reachable p) (network : Network) (cs : Chainstate) (headers : List BlockHeader)
    (now : ℕ) (allow_low_work : Bool) (at_ : ℕ) (salt : List UInt8) :
    let r := p.on_headers network cs headers now allow_low_work at_ salt
    (r.2.2 = { cs with tree := r.2.2.tree } ∧ ∀ hash node, cs.tree.get hash = none → r.2.2.tree.get hash = some node →
      node.header.hash = hash ∧
        ((node.header ∈ headers ∧
          ((∃ last, headers.getLast? = some last ∧ is_ancestor_of_best_header_or_tip cs last.hash = true) ∨
            ∃ first fork, headers.head? = some first ∧ cs.tree.get first.prev_block_hash = some fork ∧
              anti_dos_work_threshold cs cs.params ≤ fork.chainwork + batch_work headers)) ∨
          ∃ state start history, p.headers_sync = some state ∧ Opened start ∧
            Fed start (state.process_next_headers headers (headers.length == MAX_HEADERS_RESULTS)).2 history ∧
            node.header ∈ (state.process_next_headers headers
              (headers.length == MAX_HEADERS_RESULTS)).1.pow_validated_headers ∧
            node.header ∈ history.released ∧
            start.minimum_required_work ≤ start.work_with history.presynced)) ∧
      (∀ e, r.1 = .error e → (∀ rej, e ≠ .InvalidHeader (.Rejected rej)) → r.2.2 = cs) ∧
      (∀ outcome, r.1 = .ok outcome → outcome.added = 0 → r.2.2 = cs) ∧
      Synced p headers r.2.1.headers_sync ∧
      ∀ state, r.2.1.headers_sync = some state → ∃ start history, Opened start ∧ Fed start state history
        ∧ state.is_final = false := by
  intro r
  obtain ⟨⟨handed, hpassed, htook⟩, hsynced⟩ := on_headers_spec p network cs headers now allow_low_work at_ salt
  refine ⟨⟨htook.grown.rest, fun hash node hnew hnode => ?_⟩, htook.error, htook.ok, hsynced,
    Synced.tracked h.tracked hsynced⟩
  obtain ⟨hmem, hhash⟩ := htook.grown.added hash node hnew hnode
  refine ⟨hhash, ?_⟩
  cases hpassed with
  | nothing => cases hmem
  | known hlast known => exact Or.inl ⟨hmem, Or.inl ⟨_, hlast, known⟩⟩
  | work hfirst hfork work => exact Or.inl ⟨hmem, Or.inr ⟨_, _, hfirst, hfork, work⟩⟩
  | @released state sync continuous =>
    obtain ⟨start, history, hopened, hfed, -⟩ := h.tracked state sync
    have hnext := hfed.next headers (headers.length == MAX_HEADERS_RESULTS) continuous
    have hfresh : Fresh start := by
      obtain ⟨network, cs, fork, now, salt, rfl⟩ := hopened
      exact fresh_new _ _ _ _ _ _ _
    have hsafe := (hnext.live hfresh).2
    have hreleased : node.header ∈ (history.next state headers (headers.length == MAX_HEADERS_RESULTS)).released :=
      List.mem_append_right _ hmem
    refine Or.inr ⟨state, start, _, sync, hopened, hnext, hmem, hreleased, hsafe.proved fun hnil => ?_⟩
    have hall := hsafe.order.subset hreleased
    rw [hnil] at hall
    cases hall

end PeerSync

end

namespace PeerSync

section

attribute [local instance] Platform.sample

abbrev sample_page : Except SyncError HeadersOutcome × PeerSync × Chainstate :=
  new.on_headers .Regtest (Chainstate.new sample_params) [sample_header 1 2 7] 100 true 0 []

theorem header_tree_gate_page : sample_page.2.2.tree.contains 2 = true ∧
    ∀ node, sample_page.2.2.tree.get 2 = some node → node.header.hash = 2 := by
  have hgate := header_tree_gate .new .Regtest (Chainstate.new sample_params) [sample_header 1 2 7] 100 true 0 []
  refine ⟨by decide, fun node hnode => (hgate.1.2 2 node ?_ hnode).1⟩
  decide

end

end PeerSync

end AvilaNode
