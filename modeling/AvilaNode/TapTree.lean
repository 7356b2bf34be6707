import AvilaNode.TransactionCodec
import Mathlib.Data.Tree.Basic

/-! The taproot tree of an output's map: leaves in depth-first order, and the trees whose leaves they are. -/

namespace AvilaNode.Psbt

open ByteReader Decoder

inductive PsbtError where
  | UnexpectedEnd
  | CompactSizeTooLarge
  | BadMagic
  | GlobalMapUnterminated
  | InputCountMismatch
  | OutputCountMismatch
  | MissingUnsignedTx
  | NonEmptyScriptSig
  | UnsupportedVersion
  | Core (message : String)
  | TrailingBytes
  | Value (error : DecodeError)
deriving DecidableEq, Repr

def map_decode_err : DecodeError → PsbtError
  | .UnexpectedEnd _ _ => .UnexpectedEnd
  | .CompactSizeTooLarge _ => .CompactSizeTooLarge
  | .NonCanonicalCompactSize => .CompactSizeTooLarge
  | e => .Value e

/-- How a check ends that accepts nothing: the last two are an index that panics and a loop that goes
on after the turns it was given. -/
inductive Halt where
  | Refused (e : PsbtError)
  | IndexOutOfRange
  | Spins
deriving DecidableEq, Repr

def index (branch : List Bool) (d : ℕ) : Except Halt Bool :=
  match branch[d]? with
  | some open_node => .ok open_node
  | none => .error .IndexOutOfRange

def put (branch : List Bool) (d : ℕ) : Except Halt (List Bool) :=
  if d < branch.length then .ok (branch.set d true) else .error .IndexOutOfRange

def waits (branch : List Bool) (d : ℕ) : Except Halt Bool :=
  if d < branch.length then index branch d else .ok false

def merge : ℕ → List Bool → Except Halt (Option (ℕ × List Bool))
  | 0, branch => do
    if ← waits branch 0 then pure none else pure (some (0, branch))
  | d + 1, branch => do
    if ← waits branch (d + 1) then merge d branch.dropLast else pure (some (d + 1, branch))

def resize (branch : List Bool) (len : ℕ) : List Bool := branch ++ List.replicate (len - branch.length) false

def settle (branch : List Bool) (d : ℕ) : Except Halt (List Bool) :=
  put (if branch.length ≤ d then resize branch (d + 1) else branch) d

def insert (depth : ℕ) (branch : List Bool) : Except Halt (Option (List Bool)) :=
  if depth + 1 < branch.length then .ok none
  else do
    match ← merge depth branch with
    | none => pure none
    | some (d, branch) => some <$> settle branch d

structure TapLeaf where
  depth : UInt8
  leaf_ver : UInt8
  script : List UInt8
deriving DecidableEq, Repr

def read_leaf : Decoder TapLeaf := do
  let depth ← read_u8
  let leaf_ver ← read_u8
  let script ← read_var_bytes
  pure ⟨depth, leaf_ver, script⟩

def check_leaf (leaf : TapLeaf) : Except Halt Unit :=
  if 128 < leaf.depth.toNat then
    .error (.Refused (.Core "Output Taproot tree has as leaf greater than Taproot maximum depth"))
  else if leaf.leaf_ver &&& ~~~0xfe ≠ 0 then
    .error (.Refused (.Core "Output Taproot tree has a leaf with an invalid leaf version"))
  else .ok ()

def take_depth (branch : Option (List Bool)) (depth : ℕ) : Except Halt (Option (List Bool)) :=
  match branch with
  | none => .ok none
  | some branch => insert depth branch

def walk_leaves : ℕ → List UInt8 → Option (List Bool) → Except Halt (Option (List Bool))
  | turns, bytes, branch =>
    if bytes.isEmpty then .ok branch
    else match turns with
      | 0 => .error .Spins
      | turns + 1 =>
        match read_leaf bytes with
        | .error e => .error (.Refused (map_decode_err e))
        | .ok (leaf, rest) => do
          check_leaf leaf
          walk_leaves turns rest (← take_depth branch leaf.depth.toNat)

def check_tap_tree (value : List UInt8) : Except Halt Unit :=
  if value.isEmpty then .error (.Refused (.Core "Output Taproot tree must not be empty"))
  else do
    let branch ← walk_leaves value.length value (some [])
    if branch = some [] ∨ branch = some [true] then .ok ()
    else .error (.Refused (.Core "Output Taproot tree is malformed"))

theorem waits_eq (branch : List Bool) (d : ℕ) : waits branch d = .ok (branch[d]?.getD false) := by
  unfold waits index
  by_cases h : d < branch.length
  · simp [h]
  · simp [h]

theorem waits_end (front : List Bool) (b : Bool) : waits (front ++ [b]) front.length = .ok b := by
  simp [waits_eq]

variable {branch out : List Bool} {d : ℕ}

theorem settle_beyond (h : branch.length ≤ d) :
    settle branch d = .ok (branch ++ List.replicate (d - branch.length) false ++ [true]) := by
  have hl : (branch ++ List.replicate (d - branch.length) false).length = d := by simp; omega
  have hr : resize branch (d + 1) = branch ++ List.replicate (d - branch.length) false ++ [false] := by
    rw [resize, show d + 1 - branch.length = d - branch.length + 1 by omega, List.replicate_succ',
      List.append_assoc]
  rw [settle, if_pos h, hr, put, if_pos (by simp; omega)]
  congr 1
  rw [List.set_append_right _ _ hl.le, hl]
  simp

theorem insert_above (h : branch.length ≤ d) :
    insert d branch = .ok (some (branch ++ List.replicate (d - branch.length) false ++ [true])) := by
  have hw : waits branch d = .ok false := by simp [waits_eq, List.getElem?_eq_none h]
  rw [insert, if_neg (by omega)]
  cases d <;> simp [merge, hw, settle_beyond h, bind, Except.bind, pure, Except.pure]

theorem insert_beside (front : List Bool) :
    insert front.length (front ++ [false]) = .ok (some (front ++ [true])) := by
  have hw := waits_end front false
  have hs : settle (front ++ [false]) front.length = .ok (front ++ [true]) := by simp [settle, put]
  rw [insert, if_neg (by simp)]
  generalize front.length = d at hw hs
  cases d <;> simp [merge, hw, hs, bind, Except.bind, pure, Except.pure]

theorem insert_root : insert 0 [true] = .ok none := rfl

theorem insert_joins {front : List Bool} (h : front.length = d + 1) :
    insert (d + 1) (front ++ [true]) = insert d front := by
  have hw := waits_end front true
  rw [h] at hw
  rw [insert, insert, if_neg (by simp [h]), if_neg (by omega), merge, hw]
  simp [bind, Except.bind]

theorem insert_below (h : d + 1 < branch.length) : insert d branch = .ok none := by
  rw [insert, if_pos h]

theorem branch_cases {α : Type} {branch : List α} (h : branch.length ≤ d + 1) :
    branch.length ≤ d ∨ ∃ front b, branch = front ++ [b] ∧ front.length = d := by
  rcases Nat.lt_or_ge d branch.length with hd | hd
  · have hne : branch ≠ [] := by rintro rfl; simp at hd
    exact .inr ⟨branch.dropLast, branch.getLast hne, (List.dropLast_append_getLast hne).symm, by simp; omega⟩
  · exact .inl hd

theorem insert_total (d : ℕ) (branch : List Bool) : ∃ r, insert d branch = .ok r := by
  induction d generalizing branch with
  | zero =>
    rcases Nat.lt_or_ge 1 branch.length with hl | hl
    · exact ⟨_, insert_below hl⟩
    obtain hb | ⟨front, b, rfl, hf⟩ := branch_cases hl
    · exact ⟨_, insert_above hb⟩
    obtain rfl := List.length_eq_zero_iff.mp hf
    cases b with
    | false => exact ⟨_, insert_beside []⟩
    | true => exact ⟨_, insert_root⟩
  | succ d ih =>
    rcases Nat.lt_or_ge (d + 1 + 1) branch.length with hl | hl
    · exact ⟨_, insert_below hl⟩
    obtain hb | ⟨front, b, rfl, hf⟩ := branch_cases hl
    · exact ⟨_, insert_above hb⟩
    cases b with
    | false => exact ⟨_, hf ▸ insert_beside front⟩
    | true => exact insert_joins hf ▸ ih front

def leaf_depths : BinaryTree Unit → ℕ → List ℕ
  | .nil, d => [d]
  | .node _ l r, d => leaf_depths l (d + 1) ++ leaf_depths r (d + 1)

theorem height_le {t : BinaryTree Unit} {n : ℕ} (h : ∀ x ∈ leaf_depths t d, x ≤ d + n) : t.height ≤ n := by
  induction t generalizing d n with
  | nil => simp
  | node _ l r ihl ihr =>
    simp only [leaf_depths, List.mem_append] at h
    cases n with
    | zero =>
      have hdeep : ∀ (t : BinaryTree Unit) d, ∃ x ∈ leaf_depths t d, d ≤ x := by
        intro t
        induction t with
        | nil => simp [leaf_depths]
        | node _ l r ihl ihr =>
          intro d
          obtain ⟨x, hx, hd⟩ := ihl (d + 1)
          exact ⟨x, List.mem_append_left _ hx, by omega⟩
      obtain ⟨x, hx, hd⟩ := hdeep l (d + 1)
      have := h x (.inl hx)
      omega
    | succ n =>
      have hl := ihl (d := d + 1) (n := n) fun x hx => by have := h x (.inl hx); omega
      have hr := ihr (d := d + 1) (n := n) fun x hx => by have := h x (.inr hx); omega
      simp only [BinaryTree.height]
      omega

variable {front : List (Option (BinaryTree Unit))} (ds : List ℕ)

theorem walk_none : ds.foldlM take_depth none = .ok none := by
  induction ds with
  | nil => rfl
  | cons d ds ih => exact ih

theorem walk_tree (t : BinaryTree Unit) (h : branch.length ≤ d + 1) :
    (leaf_depths t d).foldlM take_depth (some branch) = insert d branch := by
  induction t generalizing d branch with
  | nil => simp [leaf_depths, take_depth]
  | node _ l r ihl ihr =>
    obtain ⟨front, hf, hfront⟩ : ∃ front, front = branch ++ List.replicate (d + 1 - branch.length) false ∧
      front.length = d + 1 := ⟨_, rfl, by simp; omega⟩
    have hpad : insert d front = insert d branch := by
      rcases Nat.lt_or_ge d branch.length with hd | hd
      · rw [hf, show d + 1 - branch.length = 0 by omega]
        simp
      have he : front = branch ++ List.replicate (d - branch.length) false ++ [false] := by
        rw [hf, show d + 1 - branch.length = d - branch.length + 1 by omega, List.replicate_succ',
          List.append_assoc]
      have hb := insert_beside (branch ++ List.replicate (d - branch.length) false)
      rw [show (branch ++ List.replicate (d - branch.length) false).length = d by simp; omega] at hb
      rw [he, hb, insert_above hd]
    rw [leaf_depths, List.foldlM_append, ihl (by omega), insert_above h, ← hf]
    change (leaf_depths r (d + 1)).foldlM take_depth (some (front ++ [true])) = _
    rw [ihr (by simp; omega), insert_joins hfront, hpad]

def spread : ℕ → List (Option (BinaryTree Unit)) → List ℕ
  | _, [] => []
  | d, node :: nodes => node.elim [] (leaf_depths · d) ++ spread (d + 1) nodes

theorem spread_append (d : ℕ) (xs ys : List (Option (BinaryTree Unit))) :
    spread d (xs ++ ys) = spread d xs ++ spread (d + xs.length) ys := by
  induction xs generalizing d with
  | nil => rfl
  | cons x xs ih =>
    rw [List.cons_append, spread, ih, spread, List.append_assoc, List.length_cons, Nat.add_right_comm, Nat.add_assoc]

theorem spread_none (d n : ℕ) : spread d (List.replicate n none) = [] := by
  induction n generalizing d with
  | zero => rfl
  | succ n ih => rw [List.replicate_succ, spread, ih]; rfl

theorem spread_end (node : Option (BinaryTree Unit)) (h : front.length = d) :
    spread 0 (front ++ [node]) = spread 0 front ++ node.elim [] (leaf_depths · d) := by
  rw [spread_append, h, Nat.zero_add, spread, spread, List.append_nil]

theorem spreads_above {nodes : List (Option (BinaryTree Unit))} (hd : nodes.length ≤ d) (t : BinaryTree Unit)
    (h : insert d (nodes.map Option.isSome) = .ok (some out)) :
    ∃ nodes', out = nodes'.map Option.isSome ∧ spread 0 nodes' = spread 0 nodes ++ leaf_depths t d := by
  rw [insert_above (by simpa using hd)] at h
  cases h
  refine ⟨nodes ++ List.replicate (d - nodes.length) none ++ [some t], by simp, ?_⟩
  rw [spread_end (d := d) (some t) (by simp; omega), spread_append, spread_none, List.append_nil]
  rfl

theorem spreads_beside (hf : front.length = d) (t : BinaryTree Unit)
    (h : insert d ((front ++ [none]).map Option.isSome) = .ok (some out)) :
    ∃ nodes', out = nodes'.map Option.isSome ∧ spread 0 nodes' = spread 0 (front ++ [none]) ++ leaf_depths t d := by
  have hb := insert_beside (front.map Option.isSome)
  rw [List.length_map, hf] at hb
  rw [List.map_append] at h
  change insert d (front.map Option.isSome ++ [false]) = _ at h
  rw [hb] at h
  cases h
  refine ⟨front ++ [some t], by simp, ?_⟩
  rw [spread_end _ hf, spread_end _ hf]
  simp

theorem insert_spreads (d : ℕ) (nodes : List (Option (BinaryTree Unit))) (t : BinaryTree Unit)
    (h : insert d (nodes.map Option.isSome) = .ok (some out)) :
    ∃ nodes', out = nodes'.map Option.isSome ∧ spread 0 nodes' = spread 0 nodes ++ leaf_depths t d := by
  have hlen : nodes.length ≤ d + 1 := by
    by_contra hlen
    rw [insert_below (by simpa using hlen)] at h
    cases h
  induction d generalizing nodes t with
  | zero =>
    obtain hb | ⟨front, node, rfl, hf⟩ := branch_cases hlen
    · exact spreads_above hb t h
    obtain rfl := List.length_eq_zero_iff.mp hf
    cases node with
    | none => exact spreads_beside rfl t h
    | some other => cases h
  | succ d ih =>
    obtain hb | ⟨front, node, rfl, hf⟩ := branch_cases hlen
    · exact spreads_above hb t h
    cases node with
    | none => exact spreads_beside hf t h
    | some other =>
      rw [List.map_append] at h
      change insert (d + 1) (front.map Option.isSome ++ [true]) = _ at h
      rw [insert_joins (by simpa using hf)] at h
      obtain ⟨nodes, ho, hs⟩ := ih front (.node () other t) h hf.le
      exact ⟨nodes, ho, by rw [hs, spread_end _ hf, leaf_depths, List.append_assoc]; rfl⟩

theorem walk_spreads (nodes : List (Option (BinaryTree Unit)))
    (h : ds.foldlM take_depth (some (nodes.map Option.isSome)) = .ok (some out)) :
    ∃ nodes', out = nodes'.map Option.isSome ∧ spread 0 nodes' = spread 0 nodes ++ ds := by
  induction ds generalizing nodes with
  | nil =>
    cases h
    exact ⟨nodes, rfl, by simp⟩
  | cons d ds ih =>
    rw [List.foldlM_cons] at h
    obtain ⟨branch, hi⟩ := insert_total d (nodes.map Option.isSome)
    rw [show take_depth (some (nodes.map Option.isSome)) d = .ok branch from hi] at h
    change ds.foldlM take_depth branch = _ at h
    cases branch with
    | none =>
      rw [walk_none] at h
      cases h
    | some branch =>
      obtain ⟨nodes₁, rfl, hs₁⟩ := insert_spreads d nodes .nil hi
      obtain ⟨nodes₂, rfl, hs₂⟩ := ih nodes₁ h
      exact ⟨nodes₂, rfl, by rw [hs₂, hs₁, leaf_depths, List.append_assoc]; rfl⟩

theorem walk_exact :
    ds.foldlM take_depth (some []) = .ok (some [true]) ↔ ∃ t, leaf_depths t 0 = ds := by
  constructor
  · intro h
    obtain ⟨nodes, hout, hs⟩ := walk_spreads ds [] h
    obtain ⟨node, rfl⟩ := List.length_eq_one_iff.mp (by simpa using congrArg List.length hout.symm)
    cases node with
    | none => cases hout
    | some t => exact ⟨t, by simpa [spread] using hs⟩
  · rintro ⟨t, rfl⟩
    exact walk_tree t (Nat.zero_le _)

theorem walk_empty {ds : List ℕ} (h : ds.foldlM take_depth (some []) = .ok (some [])) : ds = [] := by
  obtain ⟨nodes, hout, hs⟩ := walk_spreads ds [] h
  obtain rfl := List.length_eq_zero_iff.mp (by simpa using congrArg List.length hout.symm)
  simpa [spread] using hs.symm

def TapLeaf.encode (leaf : TapLeaf) : List UInt8 := [leaf.depth] ++ ([leaf.leaf_ver] ++ write_var_bytes leaf.script)

theorem read_leaf_inverts : Inverts read_leaf TapLeaf.encode (fun leaf => leaf.script.length ≤ MAX_SIZE) where
  read_write rest hl := by
    rw [TapLeaf.encode, List.append_assoc, List.append_assoc, read_leaf,
      bind_ok (read_u8_inverts.read_write _ trivial),
      bind_ok (read_u8_inverts.read_write _ trivial), bind_ok (read_var_bytes_inverts.read_write _ hl)]
    rfl
  write_read := by
    intro bytes leaf rest he
    obtain ⟨depth, rest₁, hd, he⟩ := bind_eq_ok.mp he
    obtain ⟨leaf_ver, rest₂, hv, he⟩ := bind_eq_ok.mp he
    obtain ⟨script, rest₃, hs, he⟩ := bind_eq_ok.mp he
    cases he
    obtain ⟨-, rfl⟩ := read_u8_inverts.write_read hd
    obtain ⟨-, rfl⟩ := read_u8_inverts.write_read hv
    obtain ⟨hl, rfl⟩ := read_var_bytes_inverts.write_read hs
    exact ⟨hl, by simp [TapLeaf.encode]⟩

structure TapLeaf.WellFormed (leaf : TapLeaf) : Prop where
  depth : leaf.depth.toNat ≤ 128
  even : leaf.leaf_ver % 2 = 0
  fits : leaf.script.length ≤ MAX_SIZE

theorem masked_eq_zero (version : UInt8) : version &&& ~~~0xfe = 0 ↔ version % 2 = 0 := by
  rw [show (~~~0xfe : UInt8) = 1 from rfl, ← UInt8.toNat_inj, ← UInt8.toNat_inj, UInt8.toNat_and, UInt8.toNat_mod]
  exact Nat.and_one_is_mod version.toNat ▸ Iff.rfl

theorem TapLeaf.WellFormed.passes {leaf : TapLeaf} (h : leaf.WellFormed) : check_leaf leaf = .ok () := by
  rw [check_leaf, if_neg (Nat.not_lt.mpr h.depth), if_neg (not_not.mpr ((masked_eq_zero _).mpr h.even))]

theorem walk_leaves_encoded {leaves : List TapLeaf} (hw : ∀ leaf ∈ leaves, leaf.WellFormed) {turns : ℕ}
    (ht : leaves.length ≤ turns) (branch : Option (List Bool)) :
    walk_leaves turns (leaves.flatMap TapLeaf.encode) branch =
      (leaves.map fun leaf => leaf.depth.toNat).foldlM take_depth branch := by
  induction leaves generalizing turns branch with
  | nil =>
    cases turns <;> rfl
  | cons leaf leaves ih =>
    rw [List.forall_mem_cons] at hw
    obtain ⟨turns, rfl⟩ := Nat.exists_eq_add_of_le' (Nat.le_of_add_left_le ht)
    rw [List.flatMap_cons, walk_leaves, if_neg (by simp [TapLeaf.encode]), read_leaf_inverts.read_write _ hw.1.fits]
    simp only [hw.1.passes, List.map_cons, List.foldlM_cons]
    change (take_depth branch leaf.depth.toNat >>= _) = _
    congr 1
    funext branch
    exact ih hw.2 (by simpa using ht) branch

theorem take_depth_total (branch : Option (List Bool)) (depth : ℕ) : ∃ r, take_depth branch depth = .ok r := by
  cases branch with
  | none => exact ⟨none, rfl⟩
  | some branch => exact insert_total depth branch

theorem walk_leaves_halts {turns : ℕ} {bytes : List UInt8} (h : bytes.length ≤ turns) (branch : Option (List Bool))
    {halt : Halt} (he : walk_leaves turns bytes branch = .error halt) : ∃ e, halt = .Refused e := by
  induction turns generalizing bytes branch with
  | zero =>
    obtain rfl := List.length_eq_zero_iff.mp (Nat.le_zero.mp h)
    cases he
  | succ turns ih =>
    rw [walk_leaves] at he
    split at he
    · cases he
    · cases hr : read_leaf bytes with
      | error e =>
        rw [hr] at he
        cases he
        exact ⟨_, rfl⟩
      | ok read =>
        obtain ⟨leaf, rest⟩ := read
        rw [hr] at he
        dsimp only at he
        unfold check_leaf at he
        split at he
        · cases he
          exact ⟨_, rfl⟩
        split at he
        · cases he
          exact ⟨_, rfl⟩
        obtain ⟨next, hn⟩ := take_depth_total branch leaf.depth.toNat
        rw [hn] at he
        have hlen := congrArg List.length (read_leaf_inverts.write_read hr).2
        rw [List.length_append, TapLeaf.encode, List.length_append, List.length_singleton] at hlen
        exact ih (by omega) next he

theorem check_tap_tree_halts {value : List UInt8} {halt : Halt} (h : check_tap_tree value = .error halt) :
    ∃ e, halt = .Refused e := by
  unfold check_tap_tree at h
  split at h
  · cases h
    exact ⟨_, rfl⟩
  · cases hwalk : walk_leaves value.length value (some []) with
    | error halted =>
      rw [hwalk] at h
      cases h
      exact walk_leaves_halts le_rfl _ hwalk
    | ok branch =>
      rw [hwalk] at h
      change (if _ then _ else _) = _ at h
      split at h <;> cases h
      exact ⟨_, rfl⟩

theorem length_encoded (leaves : List TapLeaf) : leaves.length ≤ (leaves.flatMap TapLeaf.encode).length := by
  rw [List.length_flatMap, ← List.length_map fun leaf => leaf.encode.length]
  refine List.length_le_sum_of_one_le _ ?_
  simp [TapLeaf.encode]

/-- A value of well-formed leaves is a taproot tree where their depths are the leaf depths of a full binary
tree, and no value of any bytes leaves the branch or goes on without end. -/
theorem check_tap_tree_exact (leaves : List TapLeaf) (hw : ∀ leaf ∈ leaves, leaf.WellFormed) :
    (check_tap_tree (leaves.flatMap TapLeaf.encode) = .ok () ↔ leaves ≠ [] ∧ ∃ t : BinaryTree Unit,
      t.height ≤ 128 ∧ leaf_depths t 0 = leaves.map fun leaf => leaf.depth.toNat) ∧
    ∀ value, check_tap_tree value ≠ .error .IndexOutOfRange ∧ check_tap_tree value ≠ .error .Spins := by
  refine ⟨?_, fun value => ⟨fun h => ?_, fun h => ?_⟩⟩
  · rcases eq_or_ne leaves [] with rfl | hne
    · simp [check_tap_tree]
    have hdeep : ∀ x ∈ leaves.map fun leaf => leaf.depth.toNat, x ≤ 0 + 128 := by
      simpa using fun leaf hl => (hw leaf hl).depth
    have hds : (leaves.map fun leaf => leaf.depth.toNat) ≠ [] := by simpa using hne
    have hempty : (leaves.flatMap TapLeaf.encode).isEmpty = false := by
      have hpos := List.length_pos_iff.mpr hne
      have hlen := length_encoded leaves
      rw [List.isEmpty_eq_false_iff, ← List.length_pos_iff]
      omega
    rw [check_tap_tree, hempty, walk_leaves_encoded hw (length_encoded leaves)]
    generalize leaves.map (fun leaf => leaf.depth.toNat) = ds at hdeep hds
    constructor
    · intro h
      cases hwalk : ds.foldlM take_depth (some []) with
      | error halt =>
        rw [hwalk] at h
        cases h
      | ok branch =>
        rw [hwalk] at h
        change (if branch = some [] ∨ branch = some [true] then _ else _) = _ at h
        split at h
        · next hb =>
          rcases hb with rfl | rfl
          · exact absurd (walk_empty hwalk) hds
          · obtain ⟨t, rfl⟩ := (walk_exact ds).mp hwalk
            exact ⟨hne, t, height_le hdeep, rfl⟩
        · cases h
    · rintro ⟨-, t, -, ht⟩
      rw [(walk_exact ds).mpr ⟨t, ht⟩]
      rfl
  · obtain ⟨e, he⟩ := check_tap_tree_halts h
    cases he
  · obtain ⟨e, he⟩ := check_tap_tree_halts h
    cases he

def sample_leaves : List TapLeaf := [⟨2, 0xc0, [0x51]⟩, ⟨2, 0xc0, [0x52]⟩, ⟨1, 0xc0, []⟩]

theorem check_tap_tree_exact_sample : check_tap_tree (sample_leaves.flatMap TapLeaf.encode) = .ok () :=
  (check_tap_tree_exact sample_leaves (by
    simp only [sample_leaves, List.forall_mem_cons, List.not_mem_nil, false_implies, implies_true, and_true]
    exact ⟨⟨by decide, rfl, by simp [MAX_SIZE]⟩, ⟨by decide, rfl, by simp [MAX_SIZE]⟩,
      ⟨by decide, rfl, by simp⟩⟩)).1.mpr
    ⟨by simp [sample_leaves], .node () (.node () .nil .nil) .nil, by decide, rfl⟩

end AvilaNode.Psbt
