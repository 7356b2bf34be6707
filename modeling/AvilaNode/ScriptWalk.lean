import AvilaNode.ScriptSafety

/-! One walk over the instructions of a script, which every parser of scripts takes. -/

namespace AvilaNode.Interpreter

open OraclePrograms Exec ByteStrings

structure Span where
  start : ℕ
  opcode : UInt8
  data : List UInt8
  stop : ℕ
deriving DecidableEq, Repr

def Span.instruction (span : Span) : Instruction :=
  if span.opcode ≤ OP_PUSHDATA4 then .Push span.data else .Op span.opcode

def Span.raw (script : Script) (span : Span) : List UInt8 := (script.drop span.start).take (span.stop - span.start)

/-- `get_op` from `pc` on, to the end or to the first instruction that is cut short, whose start is second. -/
def op_walk (script : Script) : ℕ → ℕ → List Span × Option ℕ
  | 0, _ => ([], none)
  | fuel + 1, pc =>
    if script.length ≤ pc then ([], none)
    else
      match get_op script pc with
      | (none, _) => ([], some pc)
      | (some (opcode, data), next) =>
        (⟨pc, opcode, data, next⟩ :: (op_walk script fuel next).1, (op_walk script fuel next).2)

def walk (script : Script) : List Span × Option ℕ := op_walk script script.length 0

structure Instructions where
  bytes : Script
  position : ℕ
  finished : Bool

namespace Instructions

def next (it : Instructions) : Option (Except ℕ Instruction) × Instructions :=
  if it.finished then (none, it)
  else
    match it.bytes[it.position]? with
    | none => (none, it)
    | some opcode =>
      match next_instruction it.bytes it.position opcode with
      | .error start => (some (.error start), { it with finished := true })
      | .ok (instruction, position) => (some (.ok instruction), { it with position })

/-- The items up to the first `None`, with the positions before and after each. -/
def items : ℕ → Instructions → List (ℕ × Except ℕ Instruction × ℕ)
  | 0, _ => []
  | fuel + 1, it =>
    match it.next with
    | (none, _) => []
    | (some item, it') => (it.position, item, it'.position) :: items fuel it'

end Instructions

/-- `trailing_push_data`, which goes on after a failure where `get_op` would. -/
def trailing_loop (bytes : Script) : ℕ → ℕ → List UInt8 → List UInt8
  | 0, _, data => data
  | fuel + 1, pc, data =>
    match bytes[pc]? with
    | none => data
    | some opcode =>
      if OP_PUSHDATA4 < opcode then trailing_loop bytes fuel (pc + 1) []
      else
        let len :=
          if opcode < OP_PUSHDATA1 then some (opcode.toNat, pc + 1)
          else if opcode = OP_PUSHDATA1 then bytes[pc + 1]?.map fun b => (b.toNat, pc + 2)
          else if opcode = OP_PUSHDATA2 then
            if pc + 3 ≤ bytes.length then some (value ((bytes.drop (pc + 1)).take 2), pc + 3) else none
          else if pc + 5 ≤ bytes.length then some (value ((bytes.drop (pc + 1)).take 4), pc + 5) else none
        match len with
        | none => trailing_loop bytes fuel (pc + 1) []
        | some (len, pc) =>
          if bytes.length - pc < len then trailing_loop bytes fuel pc []
          else trailing_loop bytes fuel (pc + len) ((bytes.drop pc).take len)

def trailing_push_data (script_sig : Script) : List UInt8 := trailing_loop script_sig (script_sig.length + 1) 0 []

theorem le_direct_iff (opcode : UInt8) : opcode ≤ MAX_DIRECT_PUSH ↔ opcode < OP_PUSHDATA1 := by
  have h1 : MAX_DIRECT_PUSH.toNat = 75 := rfl
  have h2 : OP_PUSHDATA1.toNat = 76 := rfl
  rw [UInt8.le_iff_toNat_le, UInt8.lt_iff_toNat_lt, h1, h2]
  omega

variable {opcode : UInt8} {next : ℕ} {data : List UInt8}

theorem pushdata_iff (h : ¬opcode < OP_PUSHDATA1) :
    (opcode = OP_PUSHDATA1 ∨ opcode = OP_PUSHDATA2 ∨ opcode = OP_PUSHDATA4) ↔ ¬OP_PUSHDATA4 < opcode := by
  have h1 : OP_PUSHDATA1.toNat = 76 := rfl
  have h2 : OP_PUSHDATA2.toNat = 77 := rfl
  have h4 : OP_PUSHDATA4.toNat = 78 := rfl
  rw [UInt8.lt_iff_toNat_lt, h1] at h
  rw [UInt8.lt_iff_toNat_lt, ← UInt8.toNat_inj, ← UInt8.toNat_inj, ← UInt8.toNat_inj, h1, h2, h4]
  omega

theorem not_lt_of_direct (h : opcode < OP_PUSHDATA1) : ¬OP_PUSHDATA4 < opcode := by
  have h1 : OP_PUSHDATA1.toNat = 76 := rfl
  have h4 : OP_PUSHDATA4.toNat = 78 := rfl
  rw [UInt8.lt_iff_toNat_lt, h1] at h
  rw [UInt8.lt_iff_toNat_lt, h4]
  omega

theorem next_instruction_eq {script : Script} {pc : ℕ} (hpc : pc < script.length) (opcode : UInt8) :
    next_instruction script pc opcode =
      if OP_PUSHDATA4 < opcode then .ok (.Op opcode, pc + 1)
      else (push_size script opcode (pc + 1)).elim (.error pc) fun p =>
        if script.length - p.2 < p.1 then .error pc else .ok (.Push ((script.drop p.2).take p.1), p.2 + p.1) := by
  have hroom (cursor len : ℕ) (h : cursor ≤ script.length) :
      (if cursor + len ≤ script.length then Except.ok (Instruction.Push ((script.drop cursor).take len), cursor + len)
        else .error pc) =
      if script.length - cursor < len then .error pc
      else .ok (.Push ((script.drop cursor).take len), cursor + len) := by
    by_cases hfits : cursor + len ≤ script.length
    · rw [if_pos hfits, if_neg (by omega)]
    · rw [if_neg hfits, if_pos (by omega)]
  unfold next_instruction push_size
  by_cases hdirect : opcode < OP_PUSHDATA1
  · simp only [le_direct_iff, if_pos hdirect, if_neg (not_lt_of_direct hdirect), Option.elim_some]
    exact hroom _ _ hpc
  simp only [le_direct_iff, if_neg hdirect, pushdata_iff hdirect]
  by_cases hop : OP_PUSHDATA4 < opcode
  · simp only [hop, not_true_eq_false, if_false, if_true]
  simp only [hop, not_false_eq_true, if_true, if_false]
  generalize (if opcode = OP_PUSHDATA1 then 1 else if opcode = OP_PUSHDATA2 then 2 else 4) = width
  by_cases hwidth : pc + 1 + width ≤ script.length
  · simp only [if_pos hwidth, if_neg (Nat.not_lt.mpr hwidth), Option.elim_some]
    exact hroom _ _ hwidth
  · simp only [if_neg hwidth, if_pos (Nat.lt_of_not_le hwidth), Option.elim_none]

theorem next_instruction_of_get_op {script : Script} {pc : ℕ} {op : UInt8} (hat : script[pc]? = some opcode)
    (h : get_op script pc = (some (op, data), next)) :
    op = opcode ∧ next_instruction script pc opcode = .ok ((⟨pc, opcode, data, next⟩ : Span).instruction, next) := by
  unfold get_op at h
  rw [hat] at h
  rw [next_instruction_eq (List.getElem?_eq_some_iff.mp hat).1]
  unfold Span.instruction
  dsimp only at h ⊢
  by_cases hop : OP_PUSHDATA4 < opcode
  · rw [if_pos hop] at h ⊢
    cases h
    rw [if_neg (UInt8.not_le.mpr hop)]
    exact ⟨rfl, rfl⟩
  · rw [if_neg hop] at h ⊢
    cases hsize : push_size script opcode (pc + 1) with
    | none => rw [hsize] at h; cases h
    | some p =>
      rw [hsize] at h
      dsimp only at h
      rw [Option.elim_some, if_pos (UInt8.not_lt.mp hop)]
      split at h
      · cases h
      · next hfits =>
        cases h
        rw [if_neg hfits]
        exact ⟨rfl, rfl⟩

theorem next_instruction_of_cut {script : Script} {pc : ℕ} (hat : script[pc]? = some opcode)
    (h : get_op script pc = (none, next)) :
    next_instruction script pc opcode = .error pc := by
  unfold get_op at h
  rw [hat] at h
  rw [next_instruction_eq (List.getElem?_eq_some_iff.mp hat).1]
  dsimp only at h
  by_cases hop : OP_PUSHDATA4 < opcode
  · rw [if_pos hop] at h
    cases h
  rw [if_neg hop] at h ⊢
  cases hsize : push_size script opcode (pc + 1) with
  | none => rfl
  | some p =>
    rw [hsize] at h
    dsimp only at h
    split at h
    · next hfits => rw [Option.elim_some, if_pos hfits]
    · cases h

variable {script : Script} {fuel pc : ℕ}

theorem op_walk_end (h : script.length ≤ pc) : op_walk script fuel pc = ([], none) := by
  cases fuel with
  | zero => rfl
  | succ fuel => rw [op_walk, if_pos h]

theorem op_walk_cut (hpc : pc < script.length) (h : get_op script pc = (none, next)) :
    op_walk script (fuel + 1) pc = ([], some pc) := by
  rw [op_walk, if_neg (Nat.not_le.mpr hpc), h]

theorem op_walk_step (hpc : pc < script.length) (h : get_op script pc = (some (opcode, data), next)) :
    op_walk script (fuel + 1) pc =
      (⟨pc, opcode, data, next⟩ :: (op_walk script fuel next).1, (op_walk script fuel next).2) := by
  rw [op_walk, if_neg (Nat.not_le.mpr hpc), h]

theorem op_walk_induct {P : ℕ → ℕ → Prop} (hend : ∀ fuel pc, script.length ≤ pc → P fuel pc)
    (hcut : ∀ fuel pc next, pc < script.length → get_op script pc = (none, next) → P (fuel + 1) pc)
    (hstep : ∀ fuel pc opcode data next, pc < script.length → get_op script pc = (some (opcode, data), next) →
      pc < next → next ≤ script.length → P fuel next → P (fuel + 1) pc)
    (fuel pc : ℕ) (hfuel : script.length ≤ pc + fuel) : P fuel pc := by
  induction fuel generalizing pc with
  | zero => exact hend 0 pc hfuel
  | succ fuel ih =>
    by_cases hpc : pc < script.length
    · cases hop : get_op script pc with
      | mk op next =>
      cases op with
      | none => exact hcut fuel pc next hpc hop
      | some op =>
        obtain ⟨hlt, hle⟩ := get_op_bounds hop
        exact hstep fuel pc op.1 op.2 next hpc hop hlt hle (ih next (by omega))
    · exact hend _ pc (Nat.not_lt.mp hpc)

theorem Instructions.next_end (h : script.length ≤ pc) :
    (⟨script, pc, false⟩ : Instructions).next = (none, ⟨script, pc, false⟩) := by
  unfold Instructions.next
  rw [if_neg nofun, List.getElem?_eq_none h]

theorem Instructions.next_cut (hpc : pc < script.length) (h : get_op script pc = (none, next)) :
    (⟨script, pc, false⟩ : Instructions).next = (some (.error pc), ⟨script, pc, true⟩) := by
  have hat := List.getElem?_eq_getElem hpc
  unfold Instructions.next
  rw [if_neg nofun, hat]
  dsimp only
  rw [next_instruction_of_cut hat h]

theorem Instructions.next_step (hpc : pc < script.length) (h : get_op script pc = (some (opcode, data), next)) :
    (⟨script, pc, false⟩ : Instructions).next =
      (some (.ok (⟨pc, opcode, data, next⟩ : Span).instruction), ⟨script, next, false⟩) := by
  have hat := List.getElem?_eq_getElem hpc
  obtain ⟨rfl, hnext⟩ := next_instruction_of_get_op hat h
  unfold Instructions.next
  rw [if_neg nofun, hat]
  dsimp only
  rw [hnext]

def walk_items (w : List Span × Option ℕ) : List (ℕ × Except ℕ Instruction × ℕ) :=
  (w.1.map fun span => (span.start, .ok span.instruction, span.stop)) ++ w.2.toList.map fun p => (p, .error p, p)

theorem items_eq_walk (hfuel : script.length ≤ pc + fuel) :
    Instructions.items (fuel + 1) ⟨script, pc, false⟩ = walk_items (op_walk script fuel pc) := by
  refine op_walk_induct (P := fun fuel pc => Instructions.items (fuel + 1) ⟨script, pc, false⟩ =
    walk_items (op_walk script fuel pc)) ?_ ?_ ?_ fuel pc hfuel
  · intro fuel pc hend
    rw [Instructions.items, Instructions.next_end hend, op_walk_end hend]
    rfl
  · intro fuel pc next hpc hop
    rw [Instructions.items, Instructions.next_cut hpc hop, op_walk_cut hpc hop]
    rfl
  · intro fuel pc opcode data next hpc hop _ _ ih
    rw [Instructions.items, Instructions.next_step hpc hop, op_walk_step hpc hop]
    dsimp only
    rw [ih]
    rfl

theorem instructions_from_eq (hfuel : script.length ≤ pc + fuel) :
    instructions_from script fuel pc = (walk_items (op_walk script fuel pc)).map fun item => item.2.1 := by
  refine op_walk_induct (P := fun fuel pc => instructions_from script fuel pc =
    (walk_items (op_walk script fuel pc)).map fun item => item.2.1) ?_ ?_ ?_ fuel pc hfuel
  · intro fuel pc hend
    rw [op_walk_end hend]
    cases fuel with
    | zero => rfl
    | succ fuel =>
      rw [instructions_from, List.getElem?_eq_none hend]
      rfl
  · intro fuel pc next hpc hop
    have hat := List.getElem?_eq_getElem hpc
    rw [instructions_from, hat, op_walk_cut hpc hop]
    dsimp only
    rw [next_instruction_of_cut hat hop]
    rfl
  · intro fuel pc opcode data next hpc hop _ _ ih
    have hat := List.getElem?_eq_getElem hpc
    obtain ⟨rfl, hnext⟩ := next_instruction_of_get_op hat hop
    rw [instructions_from, hat, op_walk_step hpc hop]
    dsimp only
    rw [hnext]
    dsimp only
    rw [ih]
    rfl

theorem instructions_eq_walk (script : Script) :
    instructions script =
      ((walk script).1.map fun span => .ok span.instruction) ++ (walk script).2.toList.map .error := by
  rw [instructions, instructions_from_eq (Nat.le_add_left _ _)]
  simp [walk_items, walk, Function.comp_def]

def consumed (script : Script) (w : List Span × Option ℕ) : ℕ := w.2.getD script.length

theorem raw_eq_take (hpc : pc ≤ script.length) (hfuel : script.length ≤ pc + fuel) :
    pc ≤ consumed script (op_walk script fuel pc) ∧
      ((op_walk script fuel pc).1.map (Span.raw script)).flatten =
        (script.drop pc).take (consumed script (op_walk script fuel pc) - pc) := by
  refine op_walk_induct (P := fun fuel pc => pc ≤ script.length → pc ≤ consumed script (op_walk script fuel pc) ∧
      ((op_walk script fuel pc).1.map (Span.raw script)).flatten =
        (script.drop pc).take (consumed script (op_walk script fuel pc) - pc)) ?_ ?_ ?_ fuel pc hfuel hpc
  · intro fuel pc hend hle
    rw [op_walk_end hend]
    have hdrop : script.drop pc = [] := List.drop_eq_nil_iff.mpr hend
    exact ⟨hle, by simp [hdrop]⟩
  · intro fuel pc next hpc hop _
    rw [op_walk_cut hpc hop]
    simp [consumed]
  · intro fuel pc opcode data next hpc hop hlt hle ih _
    rw [op_walk_step hpc hop]
    obtain ⟨hnext, hraw⟩ := ih hle
    have hcons : consumed script
      (⟨pc, opcode, data, next⟩ :: (op_walk script fuel next).1, (op_walk script fuel next).2) =
      consumed script (op_walk script fuel next) := rfl
    rw [hcons, List.map_cons, List.flatten_cons, hraw]
    generalize consumed script (op_walk script fuel next) = stop at hnext ⊢
    refine ⟨by omega, ?_⟩
    have hsplit : stop - pc = (next - pc) + (stop - next) := by omega
    have hdrop : script.drop next = (script.drop pc).drop (next - pc) := by rw [List.drop_drop]; congr 1; omega
    rw [Span.raw, hsplit, List.take_add, hdrop]

theorem trailing_loop_succ (script : Script) (fuel : ℕ) (data : List UInt8) (hat : script[pc]? = some opcode) :
    trailing_loop script (fuel + 1) pc data =
      if OP_PUSHDATA4 < opcode then trailing_loop script fuel (pc + 1) []
      else (push_size script opcode (pc + 1)).elim (trailing_loop script fuel (pc + 1) []) fun p =>
        if script.length - p.2 < p.1 then trailing_loop script fuel p.2 []
        else trailing_loop script fuel (p.2 + p.1) ((script.drop p.2).take p.1) := by
  have hone (i : ℕ) : (script[i]?.map fun b => (b.toNat, i + 1)) =
      if script.length < i + 1 then none else some (value ((script.drop i).take 1), i + 1) := by
    by_cases hi : i < script.length
    · have hdrop : (script.drop i).take 1 = [script[i]] := by rw [List.drop_eq_getElem_cons hi]; rfl
      rw [if_neg (by omega), List.getElem?_eq_getElem hi, hdrop]
      rfl
    · rw [if_pos (by omega), List.getElem?_eq_none (by omega)]
      rfl
  have hsome (n i : ℕ) : (if i + n ≤ script.length then some (value ((script.drop i).take n), i + n) else none) =
      if script.length < i + n then none else some (value ((script.drop i).take n), i + n) := by
    by_cases hi : i + n ≤ script.length
    · rw [if_pos hi, if_neg (Nat.not_lt.mpr hi)]
    · rw [if_neg hi, if_pos (Nat.lt_of_not_le hi)]
  rw [trailing_loop, hat]
  dsimp only
  by_cases hop : OP_PUSHDATA4 < opcode
  · rw [if_pos hop, if_pos hop]
  rw [if_neg hop, if_neg hop]
  have hlen : (if opcode < OP_PUSHDATA1 then some (opcode.toNat, pc + 1)
      else if opcode = OP_PUSHDATA1 then script[pc + 1]?.map fun b => (b.toNat, pc + 2)
      else if opcode = OP_PUSHDATA2 then
        if pc + 3 ≤ script.length then some (value ((script.drop (pc + 1)).take 2), pc + 3) else none
      else if pc + 5 ≤ script.length then some (value ((script.drop (pc + 1)).take 4), pc + 5) else none) =
      push_size script opcode (pc + 1) := by
    unfold push_size
    by_cases hdirect : opcode < OP_PUSHDATA1
    · rw [if_pos hdirect, if_pos hdirect]
    rw [if_neg hdirect, if_neg hdirect]
    by_cases h1 : opcode = OP_PUSHDATA1
    · simp only [h1, if_true]
      exact hone (pc + 1)
    by_cases h2 : opcode = OP_PUSHDATA2
    · simp only [h2]
      exact hsome 2 (pc + 1)
    · simp only [h1, h2, if_false]
      exact hsome 4 (pc + 1)
  rw [hlen]
  cases push_size script opcode (pc + 1) <;> rfl

theorem trailing_loop_step {op : UInt8} (before : List UInt8) (hpc : pc < script.length)
    (h : get_op script pc = (some (op, data), next)) :
    trailing_loop script (fuel + 1) pc before = trailing_loop script fuel next data := by
  have hat := List.getElem?_eq_getElem hpc
  rw [trailing_loop_succ script fuel before hat]
  unfold get_op at h
  rw [hat] at h
  dsimp only at h
  by_cases hop : OP_PUSHDATA4 < script[pc]
  · rw [if_pos hop] at h ⊢
    cases h
    rfl
  · rw [if_neg hop] at h ⊢
    cases hsize : push_size script script[pc] (pc + 1) with
    | none => rw [hsize] at h; cases h
    | some p =>
      rw [hsize] at h
      dsimp only at h
      split at h
      · cases h
      · next hfits =>
        cases h
        rw [Option.elim_some, if_neg hfits]

theorem trailing_loop_eq (data : List UInt8) (hfuel : script.length ≤ pc + fuel)
    (hwhole : (op_walk script fuel pc).2 = none) :
    trailing_loop script (fuel + 1) pc data = ((op_walk script fuel pc).1.getLast?.map Span.data).getD data := by
  refine op_walk_induct (P := fun fuel pc => ∀ data, (op_walk script fuel pc).2 = none →
    trailing_loop script (fuel + 1) pc data = ((op_walk script fuel pc).1.getLast?.map Span.data).getD data)
    ?_ ?_ ?_ fuel pc hfuel data hwhole
  · intro fuel pc hend data _
    rw [op_walk_end hend, trailing_loop, List.getElem?_eq_none hend]
    rfl
  · intro fuel pc next hpc hop data hwhole
    rw [op_walk_cut hpc hop] at hwhole
    cases hwhole
  · intro fuel pc opcode data next hpc hop _ _ ih before hwhole
    rw [op_walk_step hpc hop] at hwhole ⊢
    rw [trailing_loop_step before hpc hop, ih data hwhole, List.getLast?_cons]
    cases (op_walk script fuel next).1.getLast? <;> rfl

end AvilaNode.Interpreter
