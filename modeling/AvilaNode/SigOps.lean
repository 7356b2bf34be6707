import AvilaNode.ScriptWalk

/-! Signature operations are counted over the instructions that the machine executes. -/

namespace AvilaNode.Interpreter

open OraclePrograms Exec

def decode_op_n (opcode : UInt8) : Option UInt8 :=
  if opcode = OP_0 then some 0
  else if OP_1 ≤ opcode ∧ opcode ≤ OP_16 then some (opcode - (OP_1 - 1))
  else none

def opcode_sig_ops (accurate : Bool) (last_opcode : Option UInt8) (opcode : UInt8) : ℕ :=
  if opcode = OP_CHECKSIG ∨ opcode = OP_CHECKSIGVERIFY then 1
  else if opcode = OP_CHECKMULTISIG ∨ opcode = OP_CHECKMULTISIGVERIFY then
    if accurate then ((last_opcode.bind decode_op_n).map UInt8.toNat).getD 20 else 20
  else 0

def sig_ops_loop (accurate : Bool) : List (Except ℕ Instruction) → Option UInt8 → ℕ → ℕ
  | [], _, count => count
  | .error _ :: _, _, count => count
  | .ok (.Push _) :: rest, _, count => sig_ops_loop accurate rest none count
  | .ok (.Op opcode) :: rest, last_opcode, count =>
    sig_ops_loop accurate rest (some opcode) (count + opcode_sig_ops accurate last_opcode opcode)

def sig_ops (script : Script) (accurate : Bool) : ℕ := sig_ops_loop accurate (instructions script) none 0

def p2sh_sig_ops (script_sig : Script) : ℕ :=
  if !is_push_only script_sig then 0 else sig_ops (trailing_push_data script_sig) true

def witness_sig_ops (version : UInt8) (program : List UInt8) (witness : List Element) : ℕ :=
  if version ≠ 0 then 0
  else if program.length = WITNESS_V0_KEYHASH_SIZE then 1
  else if program.length = WITNESS_V0_SCRIPTHASH_SIZE then (witness.head?.map fun last => sig_ops last true).getD 0
  else 0

def count_witness_sig_ops (script_sig script_pubkey : Script) (witness : List Element) (flags : ScriptFlags) : ℕ :=
  if !contains flags WITNESS then 0
  else
    match witness_program script_pubkey with
    | some (version, program) => witness_sig_ops version program witness
    | none =>
      if is_p2sh script_pubkey && is_push_only script_sig then
        match witness_program (trailing_push_data script_sig) with
        | some (version, program) => witness_sig_ops version program witness
        | none => 0
      else 0

def span_sig_ops (accurate : Bool) (last opcode : UInt8) : ℕ :=
  if opcode = OP_CHECKSIG ∨ opcode = OP_CHECKSIGVERIFY then 1
  else if opcode = OP_CHECKMULTISIG ∨ opcode = OP_CHECKMULTISIGVERIFY then
    if accurate ∧ OP_1 ≤ last ∧ last ≤ OP_16 then last.toNat - 0x50 else 20
  else 0

def spans_sig_ops (accurate : Bool) : UInt8 → List Span → ℕ
  | _, [] => 0
  | last, span :: rest => span_sig_ops accurate last span.opcode + spans_sig_ops accurate span.opcode rest

def OP_INVALIDOPCODE : UInt8 := 0xff

def walk_sig_ops (accurate : Bool) (script : Script) : ℕ := spans_sig_ops accurate OP_INVALIDOPCODE (walk script).1

def execute_spans [Digests] (env : Env) : List Span → Option ℕ → Run Unit
  | [], none => Pure.pure ()
  | [], some _ => fail .BadOpcode
  | span :: rest, cut => do
    turn env span.opcode span.data span.stop
    execute_spans env rest cut

def remembered (last : UInt8) : Option UInt8 := if last ≤ OP_PUSHDATA4 then none else some last

theorem remembered_op_n (last : UInt8) : (((remembered last).bind decode_op_n).map UInt8.toNat).getD 20 =
    if OP_1 ≤ last ∧ last ≤ OP_16 then last.toNat - 0x50 else 20 := by
  revert last
  exact forall_byte (by decide +kernel)

variable (accurate : Bool) {script : Script} (m : Machine)

theorem opcode_sig_ops_eq (last opcode : UInt8) :
    opcode_sig_ops accurate (remembered last) opcode = span_sig_ops accurate last opcode := by
  unfold opcode_sig_ops span_sig_ops
  rw [remembered_op_n]
  cases accurate <;> simp

theorem span_sig_ops_push (last : UInt8) {opcode : UInt8} (h : opcode ≤ OP_PUSHDATA4) :
    span_sig_ops accurate last opcode = 0 := by
  have hne {op : UInt8} (hop : OP_PUSHDATA4 < op) : opcode ≠ op := by
    rintro rfl
    exact absurd h (UInt8.not_le.mpr hop)
  unfold span_sig_ops
  rw [if_neg, if_neg]
  · exact not_or.mpr ⟨hne (by decide), hne (by decide)⟩
  · exact not_or.mpr ⟨hne (by decide), hne (by decide)⟩

variable (spans : List Span)

theorem sig_ops_loop_eq (cut : Option ℕ) (last : UInt8) (count : ℕ) :
    sig_ops_loop accurate ((spans.map fun span => .ok span.instruction) ++ cut.toList.map .error) (remembered last)
      count = count + spans_sig_ops accurate last spans := by
  induction spans generalizing last count with
  | nil =>
    cases cut with
    | none => rfl
    | some p => rfl
  | cons span rest ih =>
    rw [List.map_cons, List.cons_append, spans_sig_ops]
    by_cases hpush : span.opcode ≤ OP_PUSHDATA4
    · have hinstruction : span.instruction = .Push span.data := if_pos hpush
      have hremembered : remembered span.opcode = none := if_pos hpush
      have h := ih span.opcode count
      rw [hremembered] at h
      rw [hinstruction, sig_ops_loop, h, span_sig_ops_push accurate last hpush, Nat.zero_add]
    · have hinstruction : span.instruction = .Op span.opcode := if_neg hpush
      have hremembered : remembered span.opcode = some span.opcode := if_neg hpush
      have h := ih span.opcode (count + opcode_sig_ops accurate (remembered last) span.opcode)
      rw [hremembered] at h
      rw [hinstruction, sig_ops_loop, h, opcode_sig_ops_eq, Nat.add_assoc]

theorem spans_sig_ops_first :
    spans_sig_ops accurate OP_0 spans = spans_sig_ops accurate OP_INVALIDOPCODE spans := by
  cases spans with
  | nil => rfl
  | cons span rest =>
    have h0 : ¬OP_1 ≤ OP_0 := by decide
    have hinvalid : ¬OP_INVALIDOPCODE ≤ OP_16 := by decide
    simp only [spans_sig_ops, span_sig_ops, h0, hinvalid, false_and, and_false, if_false]

theorem sig_ops_eq (script : Script) (accurate : Bool) : sig_ops script accurate = walk_sig_ops accurate script := by
  have h := sig_ops_loop_eq accurate (walk script).1 (walk script).2 OP_0 0
  have hremembered : remembered OP_0 = none := by decide
  rw [hremembered, ← instructions_eq_walk, Nat.zero_add, spans_sig_ops_first] at h
  exact h

theorem is_push_only_iff (script : Script) : is_push_only script = true ↔
    (walk script).2 = none ∧ ∀ span ∈ (walk script).1, span.opcode ≤ OP_16 := by
  have hsmall {opcode : UInt8} (h : opcode ≤ OP_PUSHDATA4) : opcode ≤ OP_16 := UInt8.le_trans h (by decide)
  rw [is_push_only, instructions_eq_walk, List.all_append, Bool.and_eq_true, List.all_eq_true, List.all_eq_true,
    and_comm]
  refine and_congr ?_ ?_
  · cases (walk script).2 with
    | none => simp
    | some p => simp
  · simp only [List.mem_map, forall_exists_index, and_imp, forall_apply_eq_imp_iff₂]
    refine forall_congr' fun span => imp_congr_right fun _ => ?_
    by_cases hpush : span.opcode ≤ OP_PUSHDATA4
    · have hinstruction : span.instruction = .Push span.data := if_pos hpush
      rw [hinstruction]
      exact ⟨fun _ => hsmall hpush, fun _ => rfl⟩
    · have hinstruction : span.instruction = .Op span.opcode := if_neg hpush
      rw [hinstruction]
      exact decide_eq_true_iff

theorem trailing_push_data_eq (h : is_push_only script = true) :
    trailing_push_data script = ((walk script).1.getLast?.map Span.data).getD [] :=
  trailing_loop_eq [] (Nat.le_add_left _ _) ((is_push_only_iff script).mp h).1

def Span.pushed (span : Span) : Element :=
  if span.opcode ≤ OP_PUSHDATA4 then span.data else encode_script_num ((span.opcode.toNat : ℤ) - 0x50)

variable {admits : (q : Query) → Answer q → Prop} {env : Env}

def Pushes (v : Element) (m m' : Machine) : Prop := m'.stack = v :: m.stack ∧ m'.cond = m.cond

def Same (m m' : Machine) : Prop := m'.stack = m.stack ∧ m'.cond = m.cond

theorem count_opcode_same {opcode : UInt8} (h : opcode ≤ OP_16) :
    Triple admits (fun _ => True) (Same m) (count_opcode env opcode) fun _ => Same m := by
  refine Triple.ite (fun hcount => absurd hcount.2 (UInt8.not_lt.mpr h)) fun _ => Triple.pure () fun _ hm => hm

theorem check_banned_same (P : Machine → Prop) (opcode : UInt8) :
    Triple admits (fun _ => True) P (check_banned env opcode) fun _ => P :=
  Triple.ite (fun _ => Triple.throw fun _ _ => trivial) fun _ =>
    Triple.ite (fun _ => Triple.throw fun _ _ => trivial) fun _ => Triple.pure () fun _ hm => hm

theorem push_pushes (v : Element) :
    Triple admits (fun _ => True) (Same m) (push v) fun _ => Pushes v m :=
  Triple.modify fun _ hm => ⟨congrArg (v :: ·) hm.1, hm.2⟩

section

variable [Digests]

variable {opcode : UInt8}

theorem turn_at {data : List UInt8} {next : ℕ} {m m' : Machine} (hnext : next ≤ env.script.length)
    (h : (turn env opcode data next m).Outcome admits (.ok ((), m'))) : m'.pc = next := by
  have hturn : Triple (Admits False) (Halts False) (Kept False env m.pc m.opcode_pos m.opcode_pos 0)
      (turn env opcode data next) _ := turn_keeps nofun nofun hnext nofun opcode data
  obtain ⟨m'', ⟨-, hsound⟩, rfl⟩ := hturn.ends m () m' ⟨rfl, rfl, nofun⟩ (h.mono fun _ _ _ => nofun)
  exact hsound.at_pc

theorem eval_loop_succ (fuel : ℕ) {m : Machine} (hpc : m.pc < env.script.length) :
    eval_loop env (fuel + 1) m = (eval_step env >>= fun _ => eval_loop env fuel) m := by
  change (if m.pc < env.script.length then (eval_step env >>= fun _ => eval_loop env fuel) else _ : Run Unit) m = _
  rw [if_pos hpc]

theorem eval_loop_outcome (fuel : ℕ) (m : Machine) (hfuel : env.script.length ≤ m.pc + fuel)
    (r : Except Halt (Unit × Machine)) :
    (eval_loop env fuel m).Outcome admits r ↔
      (execute_spans env (op_walk env.script fuel m.pc).1 (op_walk env.script fuel m.pc).2 m).Outcome admits r := by
  refine op_walk_induct (P := fun fuel pc => ∀ m : Machine, m.pc = pc → ∀ r,
    (eval_loop env fuel m).Outcome admits r ↔
      (execute_spans env (op_walk env.script fuel pc).1 (op_walk env.script fuel pc).2 m).Outcome admits r)
    ?_ ?_ ?_ fuel m.pc hfuel m rfl r
  · rintro fuel pc hend m rfl r
    have hdone : eval_loop env fuel m = .done (.ok ((), m)) := by
      cases fuel with
      | zero => rfl
      | succ fuel =>
        change (if m.pc < env.script.length then _ else _ : Run Unit) m = _
        rw [if_neg (Nat.not_lt.mpr hend)]
        rfl
    rw [op_walk_end hend, hdone]
    rfl
  · rintro fuel pc next hpc hop m rfl r
    rw [op_walk_cut hpc hop, eval_loop_succ fuel hpc, outcome_bind, eval_step_cut hop]
    simp only [Prog.outcome_done, reduceCtorEq, false_and, exists_false, false_or, Except.error.injEq, exists_eq_left]
    exact Prog.outcome_done.symm
  · rintro fuel pc opcode data next hpc hop hlt hle ih m rfl r
    rw [op_walk_step hpc hop, eval_loop_succ fuel hpc, outcome_bind, execute_spans, outcome_bind,
      eval_step_eq_turn hop]
    refine or_congr (exists_congr fun _ => exists_congr fun m' => and_congr_right fun hturn => ?_) Iff.rfl
    exact ih m' (turn_at hle hturn) r

theorem eval_op_small (h : opcode ≤ OP_16) (f_exec : Bool) : eval_op env opcode f_exec = eval_plain opcode := by
  have hne {op : UInt8} (hop : OP_16 < op) : opcode ≠ op := by
    rintro rfl
    exact absurd h (UInt8.not_le.mpr hop)
  have hlt {op : UInt8} (hop : OP_16 < op) : ¬op ≤ opcode := fun hle =>
    absurd (UInt8.le_trans hle h) (UInt8.not_le.mpr hop)
  unfold eval_op
  rw [if_neg (hne (by decide)), if_neg (hne (by decide)), if_neg, if_neg, if_neg, if_neg, if_neg,
    if_neg (hne (by decide)), if_neg, if_neg (hne (by decide)), if_neg]
  · exact not_or.mpr ⟨hne (by decide), hne (by decide)⟩
  · exact not_or.mpr ⟨hne (by decide), hne (by decide)⟩
  · intro hmem
    simp only [List.mem_cons, List.not_mem_nil, or_false] at hmem
    rcases hmem with rfl | rfl | rfl | rfl | rfl | rfl | rfl | rfl | rfl | rfl | rfl | rfl | rfl <;>
      revert h <;> decide
  · intro hmem
    simp only [List.mem_cons, List.not_mem_nil, or_false] at hmem
    rcases hmem with rfl | rfl | rfl | rfl | rfl | rfl <;> revert h <;> decide
  · exact not_or.mpr ⟨hne (by decide), hne (by decide)⟩
  · exact not_or.mpr ⟨hne (by decide), hne (by decide)⟩
  · exact not_or.mpr ⟨hne (by decide), fun hle => hlt (by decide) hle.1⟩

theorem eval_plain_pushes (hpush : ¬opcode ≤ OP_PUSHDATA4) (h : opcode ≤ OP_16) :
    Triple admits (fun _ => True) (Same m) (eval_plain opcode)
      fun _ => Pushes (encode_script_num ((opcode.toNat : ℤ) - 0x50)) m := by
  by_cases hnumber : opcode = OP_1NEGATE ∨ OP_1 ≤ opcode ∧ opcode ≤ OP_16
  · unfold eval_plain
    rw [if_pos hnumber]
    exact push_pushes m _
  · have hreserved : opcode = 0x50 := by
      have h1 : OP_1NEGATE.toNat = 79 := rfl
      have h2 : OP_1.toNat = 81 := rfl
      have h3 : OP_16.toNat = 96 := rfl
      have h4 : OP_PUSHDATA4.toNat = 78 := rfl
      rw [UInt8.le_iff_toNat_le, h4] at hpush
      rw [UInt8.le_iff_toNat_le, h3] at h
      rw [← UInt8.toNat_inj, UInt8.le_iff_toNat_le, UInt8.le_iff_toNat_le, h1, h2, h3] at hnumber
      apply UInt8.toNat_inj.mp
      change opcode.toNat = 80
      omega
    have hfail : eval_plain (0x50 : UInt8) = fail .BadOpcode := rfl
    rw [hreserved, hfail]
    exact Triple.throw fun _ _ => trivial

theorem turn_pushes {span : Span} (h : span.opcode ≤ OP_16) (m : Machine) (hcond : m.cond.all_true = true) :
    Triple admits (fun _ => True) (· = m) (turn env span.opcode span.data span.stop) fun _ =>
      Pushes span.pushed m := by
  refine Triple.bind Triple.get fun s => Triple.assume ?_
  rintro s ⟨rfl, rfl⟩
  refine Triple.ite (fun _ => Triple.throw fun _ _ => trivial) fun _ => ?_
  refine Triple.bind (C := fun _ => Same s) (Triple.modify ?_) fun _ => ?_
  · rintro s rfl
    exact ⟨rfl, rfl⟩
  refine Triple.bind (count_opcode_same s h) fun _ => Triple.bind (check_banned_same (Same s) _) fun _ => ?_
  refine Triple.bind (C := fun _ => Pushes span.pushed s) ?_ fun _ => ?_
  · rw [hcond]
    unfold Span.pushed
    by_cases hpush : span.opcode ≤ OP_PUSHDATA4
    · rw [if_pos hpush]
      refine Triple.ite (fun _ => ?_) fun hno => absurd ⟨rfl, hpush⟩ hno
      refine Triple.bind (C := fun _ => Same s) ?_ fun _ => push_pushes s span.data
      exact Triple.ite (fun _ => Triple.throw fun _ _ => trivial) fun _ => Triple.pure () fun _ hm => hm
    · rw [if_neg hpush]
      refine Triple.ite (fun hyes => absurd hyes.2 hpush) fun _ => ?_
      refine Triple.ite (fun _ => ?_) fun hno => absurd (Or.inl rfl) hno
      rw [eval_op_small h]
      exact eval_plain_pushes s hpush h
  · refine Triple.bind (C := fun _ => Pushes span.pushed s) ?_ fun _ => ?_
    · refine Triple.bind Triple.get fun t => Triple.assume ?_
      rintro t ⟨rfl, ht⟩
      refine Triple.ite (fun _ => Triple.throw fun _ _ => trivial) fun _ => Triple.pure () ?_
      rintro t rfl
      exact ht
    · refine Triple.bind Triple.get fun t => Triple.assume ?_
      rintro t ⟨rfl, ht⟩
      refine Triple.ite (fun _ => Triple.throw fun _ _ => trivial) fun _ => Triple.modify ?_
      rintro t rfl
      exact ht

theorem execute_spans_pushes (cut : Option ℕ) (h : ∀ span ∈ spans, span.opcode ≤ OP_16) (m : Machine)
    (hcond : m.cond.all_true = true) : Triple admits (fun _ => True) (· = m) (execute_spans env spans cut)
      fun _ m' => m'.stack = (spans.map Span.pushed).reverse ++ m.stack := by
  induction spans generalizing m with
  | nil =>
    cases cut with
    | none =>
      refine Triple.pure () ?_
      rintro m rfl
      rfl
    | some p => exact Triple.throw fun _ _ => trivial
  | cons span rest ih =>
    refine Triple.bind (turn_pushes (h span List.mem_cons_self) m hcond) fun _ => Triple.assume fun m' hm' => ?_
    have hrest := ih (fun s hs => h s (List.mem_cons_of_mem _ hs)) m' (by rw [hm'.2]; exact hcond)
    refine Triple.weaken hrest (fun _ h => h) fun _ m'' hm'' => ?_
    rw [hm'', hm'.1, List.map_cons, List.reverse_cons, List.append_assoc]
    rfl

end

theorem walk_data (fuel pc : ℕ) (hfuel : script.length ≤ pc + fuel) :
    ∀ span ∈ (op_walk script fuel pc).1, ¬span.opcode ≤ OP_PUSHDATA4 → span.data = [] := by
  refine op_walk_induct (P := fun fuel pc => ∀ span ∈ (op_walk script fuel pc).1,
    ¬span.opcode ≤ OP_PUSHDATA4 → span.data = []) ?_ ?_ ?_ fuel pc hfuel
  · intro fuel pc hend
    rw [op_walk_end hend]
    nofun
  · intro fuel pc next hpc hop
    rw [op_walk_cut hpc hop]
    nofun
  · intro fuel pc opcode data next hpc hop _ _ ih
    rw [op_walk_step hpc hop]
    intro span hspan hcode
    rcases List.mem_cons.mp hspan with rfl | hspan
    · have hat := List.getElem?_eq_getElem hpc
      obtain ⟨rfl, -⟩ := next_instruction_of_get_op hat hop
      unfold get_op at hop
      rw [hat] at hop
      dsimp only at hop hcode
      rw [if_pos (UInt8.not_le.mp hcode)] at hop
      cases hop
      rfl
    · exact ih span hspan hcode

theorem small_number_script {opcode : UInt8} (hpush : ¬opcode ≤ OP_PUSHDATA4) (h : opcode ≤ OP_16) :
    walk_sig_ops true (encode_script_num ((opcode.toNat : ℤ) - 0x50)) = 0 ∧
      witness_program (encode_script_num ((opcode.toNat : ℤ) - 0x50)) = none := by
  have hall : ∀ op : UInt8, ¬op ≤ OP_PUSHDATA4 → op ≤ OP_16 →
      walk_sig_ops true (encode_script_num ((op.toNat : ℤ) - 0x50)) = 0 ∧
        witness_program (encode_script_num ((op.toNat : ℤ) - 0x50)) = none := forall_byte (by decide +kernel)
  exact hall opcode hpush h

theorem eval_machine_pushes [Digests] (env : Env) (execdata : ExecutionData)
    (hsmall : ∀ span ∈ (walk env.script).1, span.opcode ≤ OP_16) :
    Triple (fun _ _ => True) (fun _ => True) (· = Machine.start [] execdata) (eval_machine env)
      fun _ m => m.stack = ((walk env.script).1.map Span.pushed).reverse := by
  refine Triple.ite (fun _ => Triple.throw fun _ _ => trivial) fun _ => ?_
  have hspans : Triple (fun _ _ => True) (fun _ => True) (· = Machine.start [] execdata)
      (execute_spans env (walk env.script).1 (walk env.script).2) _ :=
    execute_spans_pushes (walk env.script).1 (walk env.script).2 hsmall (Machine.start [] execdata) rfl
  refine Triple.bind (C := fun _ m => m.stack = ((walk env.script).1.map Span.pushed).reverse) ⟨?_, ?_⟩ fun _ => ?_
  · rintro s a s' rfl ho
    have h := (eval_loop_outcome env.script.length (Machine.start [] execdata) (Nat.le_add_left _ _) _).mp ho
    rw [hspans.ends _ a s' rfl h]
    exact List.append_nil _
  · exact fun _ _ _ _ => trivial
  · refine Triple.bind Triple.get fun m => Triple.assume ?_
    rintro m ⟨rfl, hm⟩
    refine Triple.ite (fun _ => Triple.throw fun _ _ => trivial) fun _ => Triple.pure () ?_
    rintro m rfl
    exact hm

theorem trailing_push_counts [Digests] (h : is_push_only script = true) {flags : ScriptFlags}
    {execdata : ExecutionData} {stack : List Element}
    (hrun : (eval_script [] ⟨script, flags, .Base⟩ execdata ()).Outcome admits (.ok (stack, ()))) :
    walk_sig_ops true (trailing_push_data script) = walk_sig_ops true (stack.headD []) ∧
      witness_program (trailing_push_data script) = witness_program (stack.headD []) := by
  obtain ⟨-, hsmall⟩ := (is_push_only_iff script).mp h
  have hstack : stack = ((walk script).1.map Span.pushed).reverse := by
    rcases outcome_bind.mp hrun with ⟨m, u, hm, hdone⟩ | ⟨e, -, he⟩
    · cases Prog.outcome_done.mp hdone
      obtain ⟨r, hr, hwithin⟩ := Prog.outcome_bind.mp hm
      rcases r with e | ⟨v, m'⟩
      · cases Prog.outcome_done.mp hwithin
      · cases Prog.outcome_done.mp hwithin
        have hends := eval_machine_pushes ⟨script, flags, .Base⟩ execdata hsmall
        exact hends.ends _ v m rfl (hr.mono fun _ _ _ => trivial)
    · cases he
  rw [trailing_push_data_eq h, hstack]
  cases hlast : (walk script).1.getLast? with
  | none =>
    rw [List.getLast?_eq_none_iff.mp hlast]
    exact ⟨rfl, rfl⟩
  | some span =>
    obtain ⟨spans, hspans⟩ := List.getLast?_eq_some_iff.mp hlast
    have hmem : span ∈ (walk script).1 := by rw [hspans]; simp
    have hhead : ((walk script).1.map Span.pushed).reverse.headD [] = span.pushed := by rw [hspans]; simp
    have hdata : ((some span).map Span.data).getD [] = span.data := rfl
    rw [hhead, hdata]
    unfold Span.pushed
    by_cases hpush : span.opcode ≤ OP_PUSHDATA4
    · rw [if_pos hpush]
      exact ⟨rfl, rfl⟩
    · obtain ⟨hnone, hprogram⟩ := small_number_script hpush (hsmall span hmem)
      rw [if_neg hpush, hnone, hprogram, walk_data _ _ (Nat.le_add_left _ _) span hmem hpush]
      exact ⟨rfl, rfl⟩

/-- The parsers of scripts agree, and signature operations are counted over what the machine executes. -/
theorem parsers_agree [Digests] (script : Script) :
    Instructions.items (script.length + 1) ⟨script, 0, false⟩ = walk_items (walk script) ∧
      ((walk script).1.map (Span.raw script)).flatten = script.take (consumed script (walk script)) ∧
      (is_push_only script = true →
        trailing_push_data script = ((walk script).1.getLast?.map Span.data).getD []) ∧
      (∀ flags sigversion m (admits : (q : Query) → Answer q → Prop) r, m.pc = 0 →
        ((eval_loop ⟨script, flags, sigversion⟩ script.length m).Outcome admits r ↔
          (execute_spans ⟨script, flags, sigversion⟩ (walk script).1 (walk script).2 m).Outcome admits r)) ∧
      (∀ accurate, sig_ops script accurate = walk_sig_ops accurate script) ∧
      (∀ flags execdata (admits : (q : Query) → Answer q → Prop) stack, is_push_only script = true →
        (eval_script [] ⟨script, flags, .Base⟩ execdata ()).Outcome admits (.ok (stack, ())) →
          p2sh_sig_ops script = walk_sig_ops true (stack.headD []) ∧
            ∀ script_pubkey witness flags, contains flags WITNESS = true → witness_program script_pubkey = none →
              is_p2sh script_pubkey = true → count_witness_sig_ops script script_pubkey witness flags =
                ((witness_program (stack.headD [])).map fun p => witness_sig_ops p.1 p.2 witness).getD 0) ∧
      ∀ program rest, program.length = WITNESS_V0_SCRIPTHASH_SIZE →
        witness_sig_ops 0 program (script :: rest) = walk_sig_ops true script := by
  refine ⟨items_eq_walk (Nat.le_add_left _ _), ?_, trailing_push_data_eq, ?_, sig_ops_eq script, ?_, ?_⟩
  · have h := (raw_eq_take (Nat.zero_le _) (Nat.le_add_left script.length 0)).2
    rwa [List.drop_zero, Nat.sub_zero] at h
  · intro flags sigversion m admits r hm
    have h : (eval_loop ⟨script, flags, sigversion⟩ script.length m).Outcome admits r ↔ _ :=
      eval_loop_outcome script.length m (Nat.le_add_left _ _) r
    rwa [hm] at h
  · intro flags execdata admits stack hpush hrun
    obtain ⟨hcount, hprogram⟩ := trailing_push_counts hpush hrun
    refine ⟨?_, ?_⟩
    · rw [p2sh_sig_ops, hpush, Bool.not_true, if_neg Bool.false_ne_true, sig_ops_eq, hcount]
    · intro script_pubkey witness flags hflag hbare hp2sh
      unfold count_witness_sig_ops
      rw [hflag, hbare, hp2sh, hpush, hprogram]
      cases witness_program (stack.headD []) <;> rfl
  · intro program rest hprogram
    have hne : ¬program.length = WITNESS_V0_KEYHASH_SIZE := by
      rw [hprogram]
      decide
    unfold witness_sig_ops
    rw [if_neg (by decide), if_neg hne, if_pos hprogram, ← sig_ops_eq]
    rfl

end AvilaNode.Interpreter
