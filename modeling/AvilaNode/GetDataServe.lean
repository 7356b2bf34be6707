import AvilaNode.Mempool
import AvilaNode.PeerSync

/-! The answer to a peer's `getdata`: an object at a time is handed to the peer's transport, and one message
lists the requests left over. -/

namespace AvilaNode.GetDataServe

open Layers

def MAX_GETDATA_SERVE_BYTES : ℕ := 16 * 1024 * 1024

structure Extrapool where
  map : Table Txid Transaction
  wtxids : Table Wtxid Txid

inductive Reply where
  | Block (block : Block)
  | Tx (tx : Transaction)
  | NotFound (missing : List InvVector)
deriving DecidableEq

namespace Extrapool

def get (pool : Extrapool) (txid : Txid) : Option Transaction := pool.map.lookup txid

def get_wtxid (pool : Extrapool) (wtxid : Wtxid) : Option Transaction :=
  (pool.wtxids.lookup wtxid).bind pool.map.lookup

end Extrapool

def get (m : Mempool) (txid : Txid) : Option Transaction := (m.map.lookup txid).map MempoolEntry.tx

def get_wtxid (m : Mempool) (wtxid : Wtxid) : Option Transaction := (m.wtxids.lookup wtxid).bind (get m)

def strip (block : Block) : Block :=
  { block with transactions := block.transactions.map fun tx =>
      { tx with inputs := tx.inputs.map fun input => { input with witness := [] } } }

def Reply.is_object : Reply → Bool
  | NotFound _ => false
  | _ => true

def Reply.size : Reply → ℕ
  | Block block => (block.transactions.map Transaction.size_with_witness).sum + 80
  | Tx tx => tx.size_with_witness
  | NotFound _ => 0

section

variable [Platform]

def object (cs : Chainstate) (mempool : Option (Mempool × Extrapool)) (inv : InvVector) : Option Reply :=
  match inv.inv_type with
  | .Block => (cs.body inv.hash).map fun block => .Block (strip block)
  | .WitnessBlock => (cs.body inv.hash).map .Block
  | .Tx | .Wtx | .WitnessTx =>
    (mempool.bind fun m => get m.1 inv.hash <|> get_wtxid m.1 inv.hash <|> m.2.get inv.hash <|>
      m.2.get_wtxid inv.hash).map .Tx
  | _ => none

/-- The loop's variables, with the state of the peer's transport. -/
structure Serving (σ : Type) where
  served : ℕ
  missing : List InvVector
  idx : ℕ
  peer : σ

variable {σ : Type} (cs : Chainstate) (mempool : Option (Mempool × Extrapool)) (send : σ → Reply → Bool × σ)

def serve_loop : List InvVector → Serving σ → Serving σ
  | [], st => st
  | inv :: rest, st =>
    if MAX_GETDATA_SERVE_BYTES ≤ st.served then st
    else
      match object cs mempool inv with
      | none => serve_loop rest { st with idx := st.idx + 1, missing := st.missing ++ [inv] }
      | some reply =>
        match send st.peer reply with
        | (true, peer) => serve_loop rest ⟨st.served + reply.size, st.missing, st.idx + 1, peer⟩
        | (false, peer) => ⟨st.served + reply.size, st.missing, st.idx + 1, peer⟩

def serve_getdata (requests : List InvVector) (peer : σ) : σ :=
  let st := serve_loop cs mempool send requests ⟨0, [], 0, peer⟩
  let missing := st.missing ++ requests.drop st.idx
  if missing.isEmpty then st.peer else (send st.peer (.NotFound missing)).2

def noted (send : σ → Reply → Bool × σ) (peer : σ × List (Reply × Bool)) (reply : Reply) :
    Bool × (σ × List (Reply × Bool)) :=
  ((send peer.1 reply).1, ((send peer.1 reply).2, peer.2 ++ [(reply, (send peer.1 reply).1)]))

def calls (requests : List InvVector) (peer : σ) : List (Reply × Bool) :=
  (serve_getdata cs mempool (noted send) requests (peer, [])).2

def within : ℕ → List InvVector → List Reply
  | _, [] => []
  | served, inv :: rest =>
    if MAX_GETDATA_SERVE_BYTES ≤ served then []
    else
      match object cs mempool inv with
      | none => within served rest
      | some reply => reply :: within (served + reply.size) rest

omit [Platform] in
def Queues (send : σ → Reply → Bool × σ) : σ → List Reply → Prop
  | _, [] => True
  | peer, reply :: rest => (send peer reply).1 = true ∧ Queues send (send peer reply).2 rest

def delivered (log : List (Reply × Bool)) : List Reply :=
    (log.filter fun call => call.1.is_object && call.2).map Prod.fst

def bytes (log : List (Reply × Bool)) : ℕ := (log.map fun call => call.1.size).sum

def listed (log : List (Reply × Bool)) : List InvVector :=
  match log.getLast? with
  | some (.NotFound missing, _) => missing
  | _ => []

structure Answered (requests : List InvVector) (log : List (Reply × Bool)) : Prop where
  partition : ∃ sent, sent.map (object cs mempool) = (delivered log).map some ∧ (sent ++ listed log).Perm requests
  capped : ∀ pre post, log = pre ++ post → MAX_GETDATA_SERVE_BYTES ≤ bytes pre →
    (post.filter fun call => call.1.is_object).length ≤ 1

def Capped (log : List (Reply × Bool)) : Prop :=
  ∀ pre post, log = pre ++ post → MAX_GETDATA_SERVE_BYTES ≤ bytes pre → post = []

omit [Platform] in
theorem Capped.call {log : List (Reply × Bool)} (h : Capped log) (hlt : bytes log < MAX_GETDATA_SERVE_BYTES)
    (call : Reply × Bool) : Capped (log ++ [call]) := by
  intro pre post he hcap
  rcases List.append_eq_append_iff.mp he with ⟨mid, rfl, hmid⟩ | ⟨mid, rfl, hmid⟩
  · cases mid with
    | nil =>
      rw [List.append_nil] at hcap
      omega
    | cons c mid =>
      obtain ⟨-, hnil⟩ := List.cons_eq_cons.mp hmid
      exact (List.append_eq_nil_iff.mp hnil.symm).2
  · have hpre : bytes pre ≤ bytes (pre ++ mid) := by simp [bytes]
    omega

structure Accounting (requests todo : List InvVector) (st : Serving (σ × List (Reply × Bool))) : Prop where
  left : requests.drop st.idx = todo
  entries : ∃ sent, sent.map (object cs mempool) = st.peer.2.map (some ∘ Prod.fst) ∧
    (sent ++ st.missing ++ todo).Perm requests
  queued : ∀ call ∈ st.peer.2, call.2 = true
  served : st.served = bytes st.peer.2
  capped : Capped st.peer.2

structure Refused (requests : List InvVector) (st : Serving (σ × List (Reply × Bool))) : Prop where
  entries : ∃ sent inv reply log, object cs mempool inv = some reply ∧ st.peer.2 = log ++ [(reply, false)] ∧
    sent.map (object cs mempool) = log.map (some ∘ Prod.fst) ∧ (∀ call ∈ log, call.2 = true) ∧
    (sent ++ st.missing ++ inv :: requests.drop st.idx).Perm requests
  capped : Capped st.peer.2

variable {cs mempool send} {requests rest : List InvVector} {inv : InvVector} {reply : Reply}
  {st : Serving (σ × List (Reply × Bool))}

theorem Accounting.start (requests : List InvVector) (peer : σ) :
    Accounting cs mempool requests requests ⟨0, [], 0, (peer, [])⟩ where
  left := rfl
  entries := ⟨[], rfl, List.Perm.refl _⟩
  queued _ hcall := absurd hcall List.not_mem_nil
  served := rfl
  capped _ _ he _ := (List.append_eq_nil_iff.mp he.symm).2

section

variable (h : Accounting cs mempool requests (inv :: rest) st)
include h

theorem Accounting.left_succ : requests.drop (st.idx + 1) =
    rest := by
  rw [← List.tail_drop, h.left, List.tail_cons]

theorem Accounting.miss :
    Accounting cs mempool requests rest { st with idx := st.idx + 1, missing := st.missing ++ [inv] } where
  left := h.left_succ
  entries := by
    obtain ⟨sent, hsent, hperm⟩ := h.entries
    refine ⟨sent, hsent, ?_⟩
    rw [← List.append_assoc, List.append_assoc _ [inv]]
    exact hperm
  queued := h.queued
  served := h.served
  capped := h.capped

theorem Accounting.queue (ho : object cs mempool inv = some reply) (hlt : st.served < MAX_GETDATA_SERVE_BYTES)
    (peer : σ) : Accounting cs mempool requests rest
      ⟨st.served + reply.size, st.missing, st.idx + 1, (peer, st.peer.2 ++ [(reply, true)])⟩ where
  left := h.left_succ
  entries := by
    obtain ⟨sent, hsent, hperm⟩ := h.entries
    refine ⟨sent ++ [inv], by simp [hsent, ho], ?_⟩
    have hmove : (sent ++ [inv] ++ (st.missing ++ rest)).Perm (sent ++ (st.missing ++ inv :: rest)) := by
      rw [List.append_assoc, List.singleton_append]
      exact List.perm_middle.symm.append_left sent
    rw [List.append_assoc]
    exact hmove.trans (by rwa [← List.append_assoc])
  queued call hcall := by
    rcases List.mem_append.mp hcall with hcall | hcall
    · exact h.queued call hcall
    · rw [List.mem_singleton.mp hcall]
  served := by simp [bytes, h.served]
  capped := h.capped.call (h.served ▸ hlt) _

theorem Accounting.refuse (ho : object cs mempool inv = some reply) (hlt : st.served < MAX_GETDATA_SERVE_BYTES)
    (peer : σ) : Refused cs mempool requests
      ⟨st.served + reply.size, st.missing, st.idx + 1, (peer, st.peer.2 ++ [(reply, false)])⟩ where
  entries := by
    obtain ⟨sent, hsent, hperm⟩ := h.entries
    exact ⟨sent, inv, reply, st.peer.2, ho, rfl, hsent, h.queued, by rwa [h.left_succ]⟩
  capped := h.capped.call (h.served ▸ hlt) _

end

theorem serve_loop_spec {todo : List InvVector} (h : Accounting cs mempool requests todo st) :
    (Queues send st.peer.1 (within cs mempool st.served todo) →
      ∃ left, Accounting cs mempool requests left (serve_loop cs mempool (noted send) todo st)) ∧
    (¬ Queues send st.peer.1 (within cs mempool st.served todo) →
      Refused cs mempool requests (serve_loop cs mempool (noted send) todo st)) := by
  induction todo generalizing st with
  | nil => exact ⟨fun _ => ⟨[], h⟩, fun hn => absurd trivial hn⟩
  | cons inv rest ih =>
    rw [serve_loop, within]
    split
    · exact ⟨fun _ => ⟨_, h⟩, fun hn => absurd trivial hn⟩
    rename_i hcap
    cases ho : object cs mempool inv with
    | none => exact ih h.miss
    | some reply =>
      cases hs : send st.peer.1 reply with
      | mk ok peer =>
        cases ok with
        | true =>
          simp only [noted, hs, Queues, true_and]
          exact ih (h.queue ho (Nat.not_le.mp hcap) peer)
        | false =>
          simp only [noted, hs, Queues, Bool.false_eq_true, false_and, not_false_eq_true, false_implies, true_and,
            true_implies]
          exact h.refuse ho (Nat.not_le.mp hcap) peer

theorem object_is_object (ho : object cs mempool inv = some reply) : reply.is_object = true := by
  unfold object at ho
  split at ho
  case h_6 => cases ho
  all_goals
    obtain ⟨_, -, rfl⟩ := Option.map_eq_some_iff.mp ho
    rfl

variable {log : List (Reply × Bool)}

theorem sent_objects {sent : List InvVector} (hsent : sent.map (object cs mempool) = log.map (some ∘ Prod.fst)) :
    ∀ call ∈ log, call.1.is_object = true := by
  intro call hcall
  have hmem : some call.1 ∈ sent.map (object cs mempool) := by
    rw [hsent]
    exact List.mem_map.mpr ⟨call, hcall, rfl⟩
  obtain ⟨inv, -, ho⟩ := List.mem_map.mp hmem
  exact object_is_object ho

def closing (missing : List InvVector) (ok : Bool) : List (Reply × Bool) :=
  if missing.isEmpty then [] else [(.NotFound missing, ok)]

omit [Platform] in
theorem closing_objects (missing : List InvVector) (ok : Bool) :
    (closing missing ok).filter (fun call => call.1.is_object) = [] := by
  unfold closing
  split <;> rfl

omit [Platform] in
theorem delivered_closing (log : List (Reply × Bool)) (missing : List InvVector) (ok : Bool) :
    delivered (log ++ closing missing ok) = delivered log := by
  unfold delivered closing
  split <;> simp [Reply.is_object]

omit [Platform] in
theorem listed_closing (hobjects : ∀ call ∈ log, call.1.is_object = true) (missing : List InvVector) (ok : Bool) :
    listed (log ++ closing missing ok) = missing := by
  unfold closing
  split
  · rename_i hnil
    rw [List.isEmpty_iff.mp hnil, List.append_nil, listed]
    split
    · rename_i hlast
      cases hobjects _ (List.mem_of_getLast? hlast)
    · rfl
  · rw [listed, List.getLast?_concat]

omit [Platform] in
theorem Capped.closing (h : Capped log) (missing : List InvVector) (ok : Bool) {pre post : List (Reply × Bool)}
    (he : log ++ closing missing ok = pre ++ post) (hcap : MAX_GETDATA_SERVE_BYTES ≤ bytes pre) :
    (post.filter fun call => call.1.is_object).length ≤ 1 := by
  have hnone := closing_objects missing ok
  rcases List.append_eq_append_iff.mp he with ⟨mid, rfl, hmid⟩ | ⟨mid, rfl, rfl⟩
  · rw [hmid, List.filter_append, List.append_eq_nil_iff] at hnone
    simp [hnone.2]
  · rw [h pre mid rfl hcap, List.nil_append, hnone]
    exact Nat.zero_le 1

theorem calls_eq (requests : List InvVector) (peer : σ) :
    ∃ ok, calls cs mempool send requests peer =
      (serve_loop cs mempool (noted send) requests ⟨0, [], 0, (peer, [])⟩).peer.2 ++
        closing ((serve_loop cs mempool (noted send) requests ⟨0, [], 0, (peer, [])⟩).missing ++
          requests.drop (serve_loop cs mempool (noted send) requests ⟨0, [], 0, (peer, [])⟩).idx) ok := by
  unfold calls serve_getdata closing
  dsimp only
  split
  · exact ⟨true, (List.append_nil _).symm⟩
  · exact ⟨_, rfl⟩

theorem Accounting.answered {left : List InvVector} (h : Accounting cs mempool requests left st) (ok : Bool) :
    Answered cs mempool requests (st.peer.2 ++ closing (st.missing ++ requests.drop st.idx) ok) where
  partition := by
    obtain ⟨sent, hsent, hperm⟩ := h.entries
    refine ⟨sent, ?_, ?_⟩
    · have hall : st.peer.2.filter (fun call => call.1.is_object && call.2) = st.peer.2 := by
        rw [List.filter_eq_self]
        intro call hcall
        simp [sent_objects hsent call hcall, h.queued call hcall]
      rw [hsent, delivered_closing, delivered, hall, List.map_map]
    · rw [listed_closing (sent_objects hsent), h.left, ← List.append_assoc]
      exact hperm
  capped _ _ := h.capped.closing _ ok

theorem Refused.unanswered (h : Refused cs mempool requests st) (ok : Bool) :
    ¬ Answered cs mempool requests (st.peer.2 ++ closing (st.missing ++ requests.drop st.idx) ok) := by
  obtain ⟨sent, inv, reply, log, ho, hlog, hsent, hqueued, hperm⟩ := h.entries
  rintro ⟨⟨sent', hsent', hperm'⟩, -⟩
  have hobjects : ∀ call ∈ st.peer.2, call.1.is_object = true := by
    intro call hcall
    rw [hlog] at hcall
    rcases List.mem_append.mp hcall with hcall | hcall
    · exact sent_objects hsent call hcall
    · rw [List.mem_singleton.mp hcall]
      exact object_is_object ho
  have hdelivered : (delivered (st.peer.2 ++ closing (st.missing ++ requests.drop st.idx) ok)).length =
    log.length := by
    have hall : log.filter (fun call => call.1.is_object && call.2) = log := by
      rw [List.filter_eq_self]
      intro call hcall
      simp [sent_objects hsent call hcall, hqueued call hcall]
    rw [delivered_closing, delivered, hlog, List.filter_append, hall]
    simp
  have hcount := congrArg List.length hsent'
  have hlen := congrArg List.length hsent
  have htotal := hperm.length_eq
  have htotal' := hperm'.length_eq
  rw [listed_closing hobjects] at htotal'
  simp only [List.length_map, List.length_append, List.length_cons] at hcount hlen htotal htotal'
  omega

theorem unanswered_of_refusal {peer : σ} (h : ¬ Queues send peer (within cs mempool 0 requests)) :
    ¬ Answered cs mempool requests (calls cs mempool send requests peer) := by
  obtain ⟨ok, hcalls⟩ := @calls_eq _ _ cs mempool send requests peer
  rw [hcalls]
  exact ((serve_loop_spec (Accounting.start requests peer)).2 h).unanswered ok

/-- Every entry is answered where the transport queues each object before the byte cap, and only there. -/
theorem getdata_answered_iff (cs : Chainstate) (mempool : Option (Mempool × Extrapool))
    (send : σ → Reply → Bool × σ) (requests : List InvVector) (peer : σ) :
    Answered cs mempool requests (calls cs mempool send requests peer) ↔
      Queues send peer (within cs mempool 0 requests) := by
  constructor
  · intro hanswered
    by_contra hrefused
    exact unanswered_of_refusal hrefused hanswered
  · intro hqueues
    obtain ⟨ok, hcalls⟩ := @calls_eq _ _ cs mempool send requests peer
    obtain ⟨left, h⟩ := (serve_loop_spec (Accounting.start requests peer)).1 hqueues
    rw [hcalls]
    exact h.answered ok

end

section

attribute [local instance] Platform.sample

def sample_serving : Chainstate :=
  { Chainstate.new sample_params with blocks := (∅ : Table BlockHash Block).insert 2 ⟨sample_header 1 2 7, []⟩ }

theorem refused_entry_lost : ¬ Answered sample_serving none [⟨.WitnessBlock, 2⟩]
    (calls sample_serving none (fun (_ : Unit) _ => (false, ())) [⟨.WitnessBlock, 2⟩] ()) := by
  apply unanswered_of_refusal
  rintro ⟨h, -⟩
  cases h

end

end AvilaNode.GetDataServe
