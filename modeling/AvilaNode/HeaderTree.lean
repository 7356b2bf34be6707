import AvilaNode.Layers
import AvilaNode.Pow

/-! The tree of accepted headers: ancestry, failed marks, and the best tip. -/

namespace AvilaNode

open Layers

structure HeaderNode where
  header : BlockHeader
  height : ℕ
  chainwork : ℕ
  n_tx : ℕ
  n_chain_tx : ℕ
  skip : Option BlockHash
deriving DecidableEq, Repr

inductive InsertStatus where
  | Added (height : ℕ)
  | AlreadyKnown (height : ℕ)
deriving DecidableEq, Repr

inductive ChainError where
  | UnknownParent (hash : BlockHash)
  | WrongBits (expected actual : CompactTarget)
  | Pow (err : PowError)
  | Time (err : TimeError)
  | BadVersion (version : ℤ)
  | InvalidParent
  | ChainWorkOverflow
  | HeightOverflow
deriving DecidableEq, Repr

structure HeaderTree where
  params : Params
  nodes : Table BlockHash HeaderNode
  tip : BlockHash
  invalid : Finset BlockHash
  children : Table BlockHash (List BlockHash)

def invert_lowest_one (n : ℕ) : ℕ := n &&& (n - 1)

def get_skip_height (height : ℕ) : ℤ :=
  if height < 2 then 0
  else if height % 2 = 1 then invert_lowest_one (invert_lowest_one (height - 1)) + 1
  else invert_lowest_one height

variable [Platform]

def HeaderNode.hash (node : HeaderNode) : BlockHash := node.header.hash

namespace HeaderTree

def new (params : Params) : HeaderTree where
  params := params
  nodes := (∅ : Table BlockHash HeaderNode).insert params.genesis_header.hash
    { header := params.genesis_header, height := 0
      chainwork := Work.from_compact params.genesis_header.bits
      n_tx := 1, n_chain_tx := 1, skip := none }
  tip := params.genesis_header.hash
  invalid := ∅
  children := ∅

def get (t : HeaderTree) (hash : BlockHash) : Option HeaderNode := t.nodes.lookup hash

def contains (t : HeaderTree) (hash : BlockHash) : Bool := (t.nodes.lookup hash).isSome

def set_node (t : HeaderTree) (hash : BlockHash) (f : HeaderNode → HeaderNode) : HeaderTree :=
  match t.get hash with
  | some node => { t with nodes := t.nodes.insert hash (f node) }
  | none => t

def note_body (t : HeaderTree) (hash : BlockHash) (n_tx : ℕ) : HeaderTree :=
  t.set_node hash fun node => { node with n_tx }

def note_connected (t : HeaderTree) (hash : BlockHash) : HeaderTree :=
  match t.get hash with
  | none => t
  | some node =>
    let prev_total := ((t.get node.header.prev_block_hash).map HeaderNode.n_chain_tx).getD 0
    t.set_node hash fun node' => { node' with n_chain_tx := prev_total + node.n_tx }

def tip_hash (t : HeaderTree) : BlockHash := t.tip

def tip_work (t : HeaderTree) : ℕ := ((t.get t.tip).map HeaderNode.chainwork).getD 0

def ancestor (t : HeaderTree) (hash : BlockHash) : Option BlockHeader := (t.get hash).map HeaderNode.header

def collect_times (t : HeaderTree) : ℕ → HeaderNode → List ℕ
  | 0, _ => []
  | slots + 1, current =>
    current.header.time :: match t.get current.header.prev_block_hash with
      | some parent => collect_times t slots parent
      | none => []

def ancestor_times (t : HeaderTree) (node : HeaderNode) : List ℕ := t.collect_times MEDIAN_TIME_SPAN node

def median_time_past (t : HeaderTree) (hash : BlockHash) : Option ℕ :=
  (t.get hash).map fun node => AvilaNode.median_time_past (t.ancestor_times node)

def descend_step (t : HeaderTree) (height : ℕ) (node : HeaderNode) : Option HeaderNode :=
  let skip_h := get_skip_height node.height
  let skip_prev_h := get_skip_height (node.height - 1)
  let parent := t.get node.header.prev_block_hash
  match node.skip.bind t.get with
  | some s =>
    if s.height = height then some s
    else if height < s.height ∧ ¬ (skip_prev_h < skip_h - 2 ∧ (height : ℤ) ≤ skip_prev_h) then some s
    else parent
  | none => parent

/-- Each hop goes down, so the height of `node` bounds them. -/
def descend (t : HeaderTree) (height : ℕ) : ℕ → HeaderNode → Option HeaderNode
  | 0, node => if height < node.height then none else some node
  | fuel + 1, node =>
    if height < node.height then (t.descend_step height node).bind fun next => descend t height fuel next
    else some node

def get_ancestor (t : HeaderTree) (from_ : BlockHash) (height : ℕ) : Option HeaderNode :=
  (t.get from_).bind fun node => t.descend height node.height node

def is_ancestor (t : HeaderTree) (ancestor descendant : HeaderNode) : Bool :=
  t.get_ancestor descendant.hash ancestor.height == some ancestor

/-- The loop of `locator` with `len` entries pushed. Heights go down to 0, so the height bounds it. -/
def locator_walk (t : HeaderTree) : ℕ → ℕ → ℕ → HeaderNode → List BlockHash
  | 0, _, _, node => [node.hash]
  | fuel + 1, len, step, node =>
    node.hash :: if node.height = 0 then []
      else
        match t.get_ancestor node.hash (node.height - step) with
        | none => []
        | some next => locator_walk t fuel (len + 1) (if 10 < len + 1 then min (step * 2) (2 ^ 32 - 1) else step) next

def locator (t : HeaderTree) : List BlockHash :=
  match t.get t.tip with
  | some node => t.locator_walk node.height 0 1 node
  | none => []

def children_of (t : HeaderTree) (hash : BlockHash) : List BlockHash := (t.children.lookup hash).getD []

/-- The stack walk of `mark_invalid`: a marked node is not walked again. -/
def mark_walk (t : HeaderTree) : ℕ → List BlockHash → Finset BlockHash → Finset BlockHash
  | 0, _, invalid => invalid
  | _, [], invalid => invalid
  | fuel + 1, h :: stack, invalid =>
    if h ∈ invalid then mark_walk t fuel stack invalid
    else mark_walk t fuel ((t.children_of h).reverse ++ stack) (insert h invalid)

/-- The best unmarked node among `candidates` that has strictly more work than `best`. -/
def elect (invalid : Finset BlockHash) (best : BlockHash × ℕ) : List (BlockHash × HeaderNode) → BlockHash × ℕ
  | [] => best
  | (h, n) :: candidates =>
    elect invalid (if h ∉ invalid ∧ best.2 < n.chainwork then (h, n.chainwork) else best) candidates

def mark_invalid (t : HeaderTree) (hash : BlockHash) : HeaderTree :=
  if hash ∈ t.invalid then t
  else
    let invalid := t.mark_walk t.nodes.entries.length (t.children_of hash).reverse (insert hash t.invalid)
    let t := { t with invalid }
    if t.tip ∈ invalid then { t with tip := (elect invalid (t.tip, Work.ZERO) (toList t.nodes)).1 } else t

def is_failed (t : HeaderTree) (hash : BlockHash) : Bool := hash ∈ t.invalid

def mark_invalid_subtree (t : HeaderTree) (hash : BlockHash) : HeaderTree :=
  if t.contains hash then t.mark_invalid hash else t

def subtree_walk (t : HeaderTree) : ℕ → List BlockHash → List BlockHash
  | 0, _ => []
  | _, [] => []
  | fuel + 1, h :: stack => h :: subtree_walk t fuel ((t.children_of h).reverse ++ stack)

def failed_ancestors (t : HeaderTree) : ℕ → BlockHash → List BlockHash
  | 0, _ => []
  | fuel + 1, h =>
    let here := if h ∈ t.invalid then [h] else []
    match t.get h with
    | some n => here ++ failed_ancestors t fuel n.header.prev_block_hash
    | none => here

def clear_invalid_subtree (t : HeaderTree) (hash : BlockHash) : HeaderTree :=
  match t.get hash with
  | none => t
  | some target =>
    let size := t.nodes.entries.length
    let to_clear := hash :: t.subtree_walk size (t.children_of hash).reverse
      ++ t.failed_ancestors (target.height + 1) target.header.prev_block_hash
    let invalid := t.invalid.filter fun h => h ∉ to_clear
    let t := { t with invalid }
    let start := if t.tip ∈ invalid then (t.tip, Work.ZERO) else (t.tip, t.tip_work)
    { t with tip := (elect invalid start (toList t.nodes)).1 }

def restore_tip (t : HeaderTree) (hash : BlockHash) : Bool × HeaderTree :=
  if hash ∈ t.invalid then
    match elect t.invalid (t.tip, Work.ZERO) (toList t.nodes) with
    | (best, work) => if work = Work.ZERO then (false, t) else (true, { t with tip := best })
  else
    match t.get hash with
    | none => (false, t)
    | some node => if node.chainwork < t.tip_work then (false, t) else (true, { t with tip := hash })

/-- The parent walk of `best_chain`, newest first. Heights go down to 0, so the height bounds it. -/
def chain_down (t : HeaderTree) : ℕ → HeaderNode → List BlockHash
  | 0, node => [node.hash]
  | fuel + 1, node =>
    if node.height = 0 then [node.hash]
    else
      match t.get node.header.prev_block_hash with
      | some parent => node.hash :: chain_down t fuel parent
      | none => [node.hash]

def best_chain (t : HeaderTree) : List BlockHash :=
  match t.get t.tip with
  | some node => (t.chain_down node.height node).reverse
  | none => []

def version_floor (params : Params) (version : ℤ) (height : ℕ) : Bool :=
  (decide (version < 2) && decide (params.bip34_height ≤ height))
    || (decide (version < 3) && decide (params.bip66_height ≤ height))
    || (decide (version < 4) && decide (params.bip65_height ≤ height))

def insert_node (t : HeaderTree) (header : BlockHeader) (parent : HeaderNode) :
    Except ChainError InsertStatus × HeaderTree :=
  match Work.checked_add parent.chainwork (Work.from_compact header.bits) with
  | none => (.error .ChainWorkOverflow, t)
  | some chainwork =>
    if 2 ^ 32 ≤ parent.height + 1 then (.error .HeightOverflow, t)
    else
      let height := parent.height + 1
      let skip := (t.get_ancestor header.prev_block_hash (get_skip_height height).toNat).map HeaderNode.hash
      let node : HeaderNode := { header, height, chainwork, n_tx := 0, n_chain_tx := 0, skip }
      let hash := header.hash
      (.ok (.Added height),
        { t with
          nodes := t.nodes.insert hash node
          children := t.children.insert header.prev_block_hash (t.children_of header.prev_block_hash ++ [hash])
          tip := if t.tip_work < chainwork then hash else t.tip })

def insert (t : HeaderTree) (header : BlockHeader) (now : ℕ) : Except ChainError InsertStatus × HeaderTree :=
  match t.get header.hash with
  | some existing => (.ok (.AlreadyKnown existing.height), t)
  | none =>
    match check_proof_of_work header.hash header.bits t.params with
    | .error e => (.error (.Pow e), t)
    | .ok () =>
      match t.get header.prev_block_hash with
      | none => (.error (.UnknownParent header.prev_block_hash), t)
      | some parent =>
        if header.prev_block_hash ∈ t.invalid then (.error .InvalidParent, t)
        else
          match required_bits parent.height parent.header header.time t.params t.ancestor with
          | .error e => (.error (.Pow e), t)
          | .ok expected =>
            if header.bits ≠ expected then (.error (.WrongBits expected header.bits), t)
            else
              let new_height := parent.height + 1
              let timewarp_min :=
                if t.params.enforce_bip94 ∧ new_height % t.params.difficulty_adjustment_interval = 0 then
                  some (parent.header.time - MAX_TIMEWARP)
                else none
              match check_block_time header.time (AvilaNode.median_time_past (t.ancestor_times parent)) now
                  timewarp_min with
              | .error e => (.error (.Time e), t)
              | .ok () =>
                if version_floor t.params header.version new_height then
                  (.error (.BadVersion header.version), t)
                else t.insert_node header parent

end HeaderTree

end AvilaNode
