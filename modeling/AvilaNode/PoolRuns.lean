import AvilaNode.Admission

/-! Runs of calls on the pool, and the admissions each call attempts. -/

namespace AvilaNode

open Layers

variable [Platform] [PoolPolicy]

inductive PoolOp where
  | accept_tx (tx : Transaction) (cs : Chainstate) (now : ℕ)
  | expire (now : ℕ)
  | remove (txid : Txid)
  | remove_recursive (txid : Txid)
  | prioritise (txid : Txid) (delta : ℤ)
  | mark_unbroadcast (txid : Txid)
  | clear_unbroadcast (txid : Txid)
  | on_block_connected (block : Block) (conf_height : ℕ)
  | reinsert_disconnected (block : Block) (cs : Chainstate) (now : ℕ)
  | refill_from_disconnected (disconnected : List BlockHash) (cs : Chainstate) (now : ℕ) (fork_first : Bool)
      (max_blocks : ℕ)
  | configure (settings : PoolSettings)
  /-- `load` writes an entry's old times back. -/
  | restore (txid : Txid) (time first_seen_height : ℕ)

namespace Mempool

def restore (m : Mempool) (txid : Txid) (time first_seen_height : ℕ) : Mempool :=
  match m.map.lookup txid with
  | none => m
  | some entry => { m with map := m.map.insert txid { entry with time, first_seen_height } }

end Mempool

namespace PoolOp

def apply (m : Mempool) : PoolOp → Mempool
  | accept_tx tx cs now => (m.accept_tx tx cs now).2
  | expire now => m.expire now
  | remove txid => m.remove txid
  | remove_recursive txid => m.remove_recursive txid
  | prioritise txid delta => m.prioritise txid delta
  | mark_unbroadcast txid => m.mark_unbroadcast txid
  | clear_unbroadcast txid => m.clear_unbroadcast txid
  | on_block_connected block conf_height => m.on_block_connected block conf_height
  | reinsert_disconnected block cs now => (m.reinsert_disconnected block cs now).2
  | refill_from_disconnected disconnected cs now fork_first max_blocks =>
    (m.refill_from_disconnected disconnected cs now fork_first max_blocks).2
  | configure settings => { m with settings }
  | restore txid time first_seen_height => m.restore txid time first_seen_height

def edits : PoolOp → Bool
  | remove _ | prioritise _ _ | mark_unbroadcast _ | clear_unbroadcast _ | configure _ | restore _ _ _ => true
  | _ => false

def readds : PoolOp → Bool
  | reinsert_disconnected _ _ _ | refill_from_disconnected _ _ _ _ _ => true
  | _ => false

end PoolOp

structure Attempt where
  pool : Mempool
  tx : Transaction
  cs : Chainstate
  now : ℕ

namespace Mempool

def attempt (m : Mempool) (tx : Transaction) (cs : Chainstate) (now : ℕ) : List Attempt :=
  if PoolPolicy.admit_hook tx then [⟨m.sweep now, tx, cs, now⟩] else []

def orphan_attempts (cs : Chainstate) (now : ℕ) (after : Mempool → Mempool) (log : Mempool → List Attempt) :
    List Transaction → Mempool → List Attempt
  | [], _ => []
  | orphan :: orphans, m =>
    (m.drop_orphan (Platform.txid orphan)).attempt orphan cs now ++
      match (m.drop_orphan (Platform.txid orphan)).accept_one orphan cs now with
      | (.ok _, m) => log m ++ orphan_attempts cs now after log orphans (after m)
      | (.error _, m) => orphan_attempts cs now after log orphans m

def unorphan_attempts (cs : Chainstate) (now : ℕ) : ℕ → Mempool → List Attempt
  | 0, _ => []
  | rounds + 1, m =>
    let ready := m.ready cs
    if ready.isEmpty then []
    else
      orphan_attempts cs now (unorphan cs now rounds) (unorphan_attempts cs now rounds) ready m
        ++ unorphan_attempts cs now rounds (admit_orphans cs now (unorphan cs now rounds) ready m)

def accept_attempts (m : Mempool) (tx : Transaction) (cs : Chainstate) (now : ℕ) : List Attempt :=
  m.attempt tx cs now ++
    match m.accept_one tx cs now with
    | (.ok _, m) => unorphan_attempts cs now m.orphans.keys.length m
    | (.error _, _) => []

def reinsert_attempts (cs : Chainstate) (now : ℕ) : List Transaction → ℕ × Mempool → List Attempt
  | [], _ => []
  | tx :: txs, p =>
    (if tx.is_coinbase then [] else p.2.accept_attempts tx cs now) ++ reinsert_attempts cs now txs (readd cs now p tx)

def refill_attempts (cs : Chainstate) (now : ℕ) : List Block → Mempool → List Attempt
  | [], _ => []
  | block :: blocks, m =>
    reinsert_attempts cs now block.transactions (0, m)
      ++ refill_attempts cs now blocks (m.reinsert_disconnected block cs now).2

end Mempool

def PoolOp.queued : PoolOp → List Block
  | reinsert_disconnected block _ _ => [block]
  | refill_from_disconnected disconnected cs _ fork_first max_blocks =>
    let queued := Mempool.queue_disconnected cs 0 (disconnected.take max_blocks)
    if fork_first then queued.reverse else queued
  | _ => []

def PoolOp.returned (op : PoolOp) : List Transaction := op.queued.flatMap Block.transactions

def PoolOp.attempts (m : Mempool) : PoolOp → List Attempt
  | accept_tx tx cs now => m.accept_attempts tx cs now
  | reinsert_disconnected block cs now => Mempool.reinsert_attempts cs now block.transactions (0, m)
  | refill_from_disconnected disconnected cs now fork_first max_blocks =>
    let queued := Mempool.queue_disconnected cs 0 (disconnected.take max_blocks)
    Mempool.refill_attempts cs now (if fork_first then queued.reverse else queued) m
  | _ => []

namespace Mempool

inductive Run (C : Mempool → PoolOp → Prop) : Mempool → Prop
  | new : Run C new
  | step {m : Mempool} (h : Run C m) (op : PoolOp) (hc : C m op) : Run C (op.apply m)

def Reachable (m : Mempool) : Prop := Run (fun _ _ => True) m

theorem Run.reachable {C : Mempool → PoolOp → Prop} {m : Mempool} (h : Run C m) : Reachable m := by
  induction h with
  | new => exact .new
  | step _ op _ ih => exact .step ih op trivial

structure SameEntries (m t : Mempool) : Prop where
  map : t.map = m.map
  spends : t.spends = m.spends
  wtxids : t.wtxids = m.wtxids
  pool_bytes : t.pool_bytes = m.pool_bytes
  score_index : t.score_index = m.score_index
  unbroadcast : t.unbroadcast = m.unbroadcast
  settings : t.settings = m.settings
  lifecycle : t.lifecycle = m.lifecycle

omit [Platform] [PoolPolicy] in
theorem SameEntries.refl (m : Mempool) : SameEntries m m := ⟨rfl, rfl, rfl, rfl, rfl, rfl, rfl, rfl⟩

structure Admits (P : Mempool → Prop) (Ok : Attempt → Prop) : Prop where
  quiet : ∀ {m t : Mempool}, SameEntries m t → t.deltas = m.deltas → P m → P t
  remove_recursive : ∀ {m : Mempool} (txid : Txid) (cause : RemovalCause) (now height : ℕ), P m →
    P (m.remove_recursive_inner txid cause now height)
  enter : ∀ {m : Mempool} (tx : Transaction) (cs : Chainstate) (c : Candidate) (now : ℕ), P m → Ok ⟨m, tx, cs, now⟩ →
    m.examine tx cs now = .ok c → P (m.enter tx cs c now).2

structure Keeps (P : Mempool → Prop) (Ok : Attempt → Prop) : Prop extends Admits P Ok where
  remove_dependents : ∀ {m : Mempool} (tx : Transaction) (now height : ℕ), P m → P (m.remove_dependents tx now height)
  forget : ∀ {m : Mempool} (deltas : Table Txid ℤ), P m → P { m with deltas }

section

variable {P : Mempool → Prop} {Ok : Attempt → Prop}

variable {m : Mempool} {now : ℕ} {cs : Chainstate}

theorem Admits.remove_fold (h : Admits P Ok) {α : Type} (id : α → Txid) (cause : α → RemovalCause) (now height : ℕ)
    (rows : List α) (hp : P m) :
    P (rows.foldl (fun m row => m.remove_recursive_inner (id row) (cause row) now height) m) := by
  induction rows generalizing m with
  | nil => exact hp
  | cons row rows ih => exact ih (h.remove_recursive (id row) (cause row) now height hp)

omit [PoolPolicy] in
theorem expire_keeps (h : ∀ (m : Mempool) (txid : Txid), P m → P (m.remove_recursive_inner txid .Expired now 0))
    (hp : P m) : P (m.expire now) := by
  unfold Mempool.expire
  dsimp only
  generalize ((toList m.map).filter _).map Prod.fst = stale
  induction stale generalizing m with
  | nil => exact hp
  | cons txid stale ih =>
    rw [List.foldl_cons]
    split
    · exact ih (h m txid hp)
    · exact ih hp

theorem Admits.expire (h : Admits P Ok) (hp : P m) (now : ℕ) : P (m.expire now) :=
  expire_keeps (fun _ txid hp => h.remove_recursive txid .Expired now 0 hp) hp

theorem Admits.sweep (h : Admits P Ok) (hp : P m) (now : ℕ) : P (m.sweep now) := by
  unfold Mempool.sweep
  split
  · apply h.expire
    exact h.quiet (m := m) ⟨rfl, rfl, rfl, rfl, rfl, rfl, rfl, rfl⟩ rfl hp
  · exact hp

omit [PoolPolicy] in
theorem park_orphan_same (m : Mempool) (tx : Transaction) (now : ℕ) :
    SameEntries m (m.park_orphan tx now) ∧ (m.park_orphan tx now).deltas = m.deltas := by
  unfold park_orphan
  dsimp only
  split
  · exact ⟨⟨rfl, rfl, rfl, rfl, rfl, rfl, rfl, rfl⟩, rfl⟩
  · exact ⟨⟨rfl, rfl, rfl, rfl, rfl, rfl, rfl, rfl⟩, rfl⟩

theorem Admits.drop_orphan (h : Admits P Ok) (hp : P m) (txid : Txid) : P (m.drop_orphan txid) :=
  h.quiet (m := m) ⟨rfl, rfl, rfl, rfl, rfl, rfl, rfl, rfl⟩ rfl hp

variable {p : ℕ × Mempool} {tx : Transaction}

theorem Admits.accept_one (h : Admits P Ok) (hp : P m) (hok : ∀ a ∈ m.attempt tx cs now, Ok a) :
    P (m.accept_one tx cs now).2 := by
  unfold Mempool.accept_one
  unfold attempt at hok
  split
  · next hook =>
    rw [if_pos hook] at hok
    have hs := h.sweep hp now
    dsimp only
    split
    · obtain ⟨hsame, hdeltas⟩ := park_orphan_same (m.sweep now) tx now
      exact h.quiet hsame hdeltas hs
    · exact hs
    · next c hc => exact h.enter tx cs c now hs (hok _ (List.mem_singleton_self _)) hc
  · exact hp

theorem Admits.admit_orphans (h : Admits P Ok) {after : Mempool → Mempool} {log : Mempool → List Attempt}
    (hafter : ∀ {m : Mempool}, P m → (∀ a ∈ log m, Ok a) → P (after m)) (orphans : List Transaction) (hp : P m)
    (hok : ∀ a ∈ orphan_attempts cs now after log orphans m, Ok a) : P (Mempool.admit_orphans cs now after orphans m)
    := by
  induction orphans generalizing m with
  | nil => exact hp
  | cons orphan orphans ih =>
    rw [orphan_attempts] at hok
    rw [Mempool.admit_orphans]
    have haccepted := h.accept_one (h.drop_orphan hp (Platform.txid orphan)) fun a ha =>
      hok a (List.mem_append_left _ ha)
    have hrest := fun a ha => hok a (List.mem_append_right _ ha)
    split
    · next hrun =>
      rw [hrun] at haccepted hrest
      exact ih (hafter haccepted fun a ha => hrest a (List.mem_append_left _ ha)) fun a ha =>
        hrest a (List.mem_append_right _ ha)
    · next hrun =>
      rw [hrun] at haccepted hrest
      exact ih haccepted hrest

theorem Admits.unorphan (h : Admits P Ok) (rounds : ℕ) (hp : P m)
    (hok : ∀ a ∈ unorphan_attempts cs now rounds m, Ok a) : P (Mempool.unorphan cs now rounds m) := by
  induction rounds generalizing m with
  | zero => exact hp
  | succ rounds ih =>
    rw [unorphan_attempts] at hok
    rw [Mempool.unorphan]
    split
    · exact hp
    · next hne =>
      rw [if_neg hne] at hok
      exact ih (h.admit_orphans ih _ hp fun a ha => hok a (List.mem_append_left _ ha)) fun a ha =>
        hok a (List.mem_append_right _ ha)

theorem Admits.accept_tx (h : Admits P Ok) (hp : P m) (hok : ∀ a ∈ m.accept_attempts tx cs now, Ok a) :
    P (m.accept_tx tx cs now).2 := by
  unfold accept_attempts at hok
  unfold Mempool.accept_tx
  have haccepted := h.accept_one hp fun a ha => hok a (List.mem_append_left _ ha)
  have hrest := fun a ha => hok a (List.mem_append_right _ ha)
  split
  · next hrun =>
    rw [hrun] at haccepted hrest
    exact h.unorphan _ haccepted hrest
  · next hrun =>
    rw [hrun] at haccepted
    exact haccepted

def DropsDependents (P : Mempool → Prop) (tx : Transaction) : Prop :=
  ∀ {m : Mempool} (now height : ℕ), P m → P (m.remove_dependents tx now height)

theorem Admits.reinsert (h : Admits P Ok) (txs : List Transaction) (hp : P p.2)
    (hdrop : ∀ tx ∈ txs, DropsDependents P tx) (hok : ∀ a ∈ reinsert_attempts cs now txs p, Ok a) :
    P (txs.foldl (readd cs now) p).2 := by
  induction txs generalizing p with
  | nil => exact hp
  | cons tx txs ih =>
    rw [reinsert_attempts] at hok
    refine ih ?_ (fun tx htx => hdrop tx (List.mem_cons_of_mem _ htx)) fun a ha => hok a (List.mem_append_right _ ha)
    have hfirst := fun a ha => hok a (List.mem_append_left _ ha)
    unfold readd
    split
    · exact hp
    · next hcb =>
      rw [if_neg hcb] at hfirst
      have haccept := h.accept_tx hp hfirst
      split
      · next hrun =>
        rw [hrun] at haccept
        exact haccept
      · next hrun =>
        rw [hrun] at haccept
        exact hdrop tx List.mem_cons_self now _ (h.drop_orphan haccept _)

theorem Admits.refill (h : Admits P Ok) (blocks : List Block) (hp : P p.2)
    (hdrop : ∀ block ∈ blocks, ∀ tx ∈ block.transactions, DropsDependents P tx)
    (hok : ∀ a ∈ refill_attempts cs now blocks p.2, Ok a) :
    P (blocks.foldl
      (fun p block =>
        let q := p.2.reinsert_disconnected block cs now
        (p.1 + q.1, q.2)) p).2 := by
  induction blocks generalizing p with
  | nil => exact hp
  | cons block blocks ih =>
    rw [refill_attempts] at hok
    refine ih ?_ (fun b hb => hdrop b (List.mem_cons_of_mem _ hb)) fun a ha => hok a (List.mem_append_right _ ha)
    exact h.reinsert block.transactions hp (hdrop block List.mem_cons_self) fun a ha =>
      hok a (List.mem_append_left _ ha)

theorem Admits.on_block_connected (h : Admits P Ok) (hforget : ∀ {m : Mempool} (deltas : Table Txid ℤ), P m →
    P { m with deltas }) (hp : P m) (block : Block) (conf_height : ℕ) :
    P (m.on_block_connected block conf_height) := by
  unfold Mempool.on_block_connected
  apply h.remove_fold Prod.fst Prod.snd
  apply hforget (m := { m with block_since_rolling_fee_bump := true })
  exact h.quiet (m := m) ⟨rfl, rfl, rfl, rfl, rfl, rfl, rfl, rfl⟩ rfl hp

theorem Admits.apply (h : Admits P Ok) (hp : P m) {op : PoolOp} (hok : ∀ a ∈ op.attempts m, Ok a)
    (hdrop : ∀ tx ∈ op.returned, DropsDependents P tx)
    (hblock : ∀ block conf_height, op = .on_block_connected block conf_height → P (op.apply m))
    (hedit : op.edits → P (op.apply m)) : P (op.apply m) := by
  cases op with
  | accept_tx tx cs now => exact h.accept_tx hp hok
  | expire now => exact h.expire hp now
  | remove_recursive txid => exact h.remove_recursive txid .Explicit 0 0 hp
  | on_block_connected block conf_height => exact hblock block conf_height rfl
  | reinsert_disconnected block cs now =>
    refine h.reinsert block.transactions (p := (0, m)) hp (fun tx htx => hdrop tx ?_) hok
    exact List.mem_flatMap.mpr ⟨block, List.mem_singleton_self _, htx⟩
  | refill_from_disconnected disconnected cs now fork_first max_blocks =>
    exact h.refill _ (p := (0, m)) hp (fun b hb tx htx => hdrop tx (List.mem_flatMap.mpr ⟨b, hb, htx⟩)) hok
  | remove | prioritise | mark_unbroadcast | clear_unbroadcast | configure | restore => exact hedit rfl

theorem Keeps.apply (h : Keeps P Ok) (hp : P m) {op : PoolOp} (hok : ∀ a ∈ op.attempts m, Ok a)
    (hedit : op.edits → P (op.apply m)) : P (op.apply m) := by
  apply h.toAdmits.apply hp hok
  · exact fun tx _ m now height hp => h.remove_dependents tx now height hp
  · rintro block conf_height rfl
    exact h.on_block_connected h.forget hp block conf_height
  · exact hedit

end

end Mempool

end AvilaNode
