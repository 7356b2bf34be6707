import AvilaNode.OpcodeBounds
import AvilaNode.ScriptRuns
import AvilaNode.SignatureEncoding

/-! The script machine is safe on every input: no panic, no stack past its limits, an end to every run. -/

namespace AvilaNode.Interpreter

open OraclePrograms Exec

variable {script : Script} (vch : List UInt8)

theorem push_size_bounds {opcode : UInt8} {pc size next : ℕ} (hpc : pc ≤ script.length)
    (h : push_size script opcode pc = some (size, next)) : pc ≤ next ∧ next ≤ script.length := by
  unfold push_size at h
  by_cases hdirect : opcode < OP_PUSHDATA1
  · rw [if_pos hdirect] at h
    cases h
    exact ⟨Nat.le_refl _, hpc⟩
  · rw [if_neg hdirect] at h
    generalize (if opcode = OP_PUSHDATA1 then 1 else if opcode = OP_PUSHDATA2 then 2 else 4) = width at h
    by_cases hlen : script.length < pc + width
    · rw [if_pos hlen] at h
      cases h
    · rw [if_neg hlen] at h
      cases h
      exact ⟨Nat.le_add_right _ _, Nat.not_lt.mp hlen⟩

theorem get_op_bounds {pc next : ℕ} {op : UInt8 × List UInt8} (h : get_op script pc = (some op, next)) :
    pc < next ∧ next ≤ script.length := by
  unfold get_op at h
  cases hop : script[pc]? with
  | none => rw [hop] at h; cases h
  | some opcode =>
    have hpc := (List.getElem?_eq_some_iff.mp hop).1
    rw [hop] at h
    dsimp only at h
    split at h
    · cases h
      exact ⟨Nat.lt_succ_self _, hpc⟩
    · cases hsize : push_size script opcode (pc + 1) with
      | none => rw [hsize] at h; cases h
      | some p =>
        obtain ⟨size, start⟩ := p
        obtain ⟨hstart, hend⟩ := push_size_bounds hpc hsize
        rw [hsize] at h
        dsimp only at h
        split at h
        · cases h
        · cases h
          omega

structure Turning (safe : Prop) (env : Env) (m : Machine) : Prop where
  sound : Kept safe env m.pc m.opcode_pos m.opcode_pos 0 m
  behind : m.opcode_pos ≤ m.pc
  inside : m.pc ≤ env.script.length

/-- What holds after an instruction: both stacks within their limit, and every element within its own. -/
structure Limited (m : Machine) : Prop where
  height : m.stack.length + m.altstack.length ≤ MAX_STACK_SIZE
  small : ∀ v ∈ m.stack ++ m.altstack, v.length ≤ MAX_SCRIPT_ELEMENT_SIZE

section

variable {safe : Prop} {env : Env} {pc pos conds depth : ℕ}

theorem check_stack_size_limits :
    Triple (Admits safe) (Halts safe) (Kept safe env pc pos conds depth) check_stack_size
    fun _ m => m.stack.length + m.altstack.length ≤ MAX_STACK_SIZE ∧ Kept safe env pc pos conds depth m := by
  refine Triple.bind Triple.get fun m => Triple.assume ?_
  rintro m ⟨rfl, hm⟩
  refine Triple.ite (fun _ => Triple.throw fun _ _ _ => nofun) fun hlen => Triple.pure () ?_
  rintro m rfl
  exact ⟨Nat.not_lt.mp hlen, hm⟩

theorem next_opcode_counts {P : Machine → Prop} (hpos : safe → pos + 1 < 2 ^ 32)
    (hP : ∀ m, P m → m.opcode_pos = pos) : Triple (Admits safe) (Halts safe) P next_opcode
      fun _ m => ∃ m', P m' ∧ m = { m' with opcode_pos := pos + 1 } := by
  refine Triple.bind Triple.get fun m => Triple.assume ?_
  rintro m ⟨rfl, hm⟩
  refine Triple.ite (fun hfull => Triple.throw fun _ _ hs => ?_) fun _ => Triple.modify ?_
  · have hroom := hpos hs
    rw [hP m hm] at hfull
    omega
  · rintro m rfl
    exact ⟨m, hm, by rw [hP m hm]⟩

structure Turned (safe : Prop) (env : Env) (m m' : Machine) : Prop where
  turning : Turning safe env m'
  height : m'.stack.length + m'.altstack.length ≤ MAX_STACK_SIZE
  read : ∃ op, get_op env.script m.pc = (some op, m'.pc)

variable {next : ℕ} {m : Machine}

theorem turn_keeps [Digests] (hsized : safe → Digests.Sized) (hversion : safe → env.sigversion ≠ .Taproot)
    (hend : next ≤ env.script.length) (hroom : safe → pos + 1 < 2 ^ 32) (opcode : UInt8) (data : Element) :
    Triple (Admits safe) (Halts safe) (Kept safe env pc pos pos 0) (turn env opcode data next) fun _ m =>
      ∃ m', (m'.stack.length + m'.altstack.length ≤ MAX_STACK_SIZE ∧ Kept safe env next pos (pos + 1) 0 m') ∧
        m = { m' with opcode_pos := pos + 1 } := by
  refine Triple.bind Triple.get fun s => Triple.assume ?_
  rintro s ⟨rfl, hs⟩
  refine Triple.ite (fun _ => Triple.throw fun _ _ _ => nofun) fun hdata => ?_
  have hconds : safe → pos < ConditionStack.NO_FALSE := by
    intro hsafe
    have hlen := hroom hsafe
    unfold ConditionStack.NO_FALSE
    omega
  refine Triple.bind (C := fun _ => Kept safe env next pos pos 0) (Triple.modify ?_) fun _ => ?_
  · rintro s rfl
    exact ⟨rfl, hs.at_pos, fun hsafe => { hs.bounded hsafe with }⟩
  refine Triple.bind (count_opcode_keeps opcode) fun _ => Triple.of_fact fun _ => ?_
  refine Triple.bind (check_banned_keeps opcode) fun _ => Triple.of_fact fun _ => ?_
  refine Triple.bind (execute_opens hsized hversion hend hconds opcode (Nat.not_lt.mp hdata) _) fun _ =>
    Triple.of_fact fun _ => ?_
  exact Triple.bind check_stack_size_limits fun _ => next_opcode_counts hroom fun m h => h.2.at_pos

theorem eval_step_eq_turn [Digests] {opcode : UInt8} {data : List UInt8}
    (h : get_op env.script m.pc = (some (opcode, data), next)) : eval_step env m = turn env opcode data next m := by
  unfold eval_step turn
  simp only [Bind.bind, Exec.bind, Exec.get, Prog.bind, h]

theorem eval_step_cut [Digests] (h : get_op env.script m.pc = (none, next)) :
    eval_step env m = .done (.error (.error .BadOpcode)) := by
  unfold eval_step
  simp only [Bind.bind, Exec.bind, Exec.get, Prog.bind, h]
  rfl

theorem eval_step_turns [Digests] (hsized : safe → Digests.Sized) (hversion : safe → env.sigversion ≠ .Taproot)
    (hshort : safe → env.script.length < 2 ^ 32) (hm : Turning safe env m) :
    Triple (Admits safe) (Halts safe) (· = m) (eval_step env) fun _ m' => Turned safe env m m' := by
  cases hop : get_op env.script m.pc with
  | mk op next =>
  cases op with
  | none =>
    refine ⟨?_, ?_⟩
    · rintro s a s' rfl ho
      rw [eval_step_cut hop] at ho
      cases Prog.outcome_done.mp ho
    · rintro s e rfl ho
      rw [eval_step_cut hop] at ho
      cases Prog.outcome_done.mp ho
      exact fun _ => nofun
  | some op =>
    obtain ⟨opcode, data⟩ := op
    obtain ⟨hnext, hend⟩ := get_op_bounds hop
    have hbehind := hm.behind
    have hroom : safe → m.opcode_pos + 1 < 2 ^ 32 := by
      intro hs
      have hlen := hshort hs
      omega
    have hturn : Triple (Admits safe) (Halts safe) (Kept safe env m.pc m.opcode_pos m.opcode_pos 0)
        (turn env opcode data next) _ := turn_keeps hsized hversion hend hroom opcode data
    refine ⟨?_, ?_⟩
    · rintro s a s' rfl ho
      rw [eval_step_eq_turn hop] at ho
      obtain ⟨m', ⟨hheight, hsound⟩, rfl⟩ := hturn.ends s a s' hm.sound ho
      have hpc := hsound.at_pc
      refine ⟨⟨⟨rfl, rfl, fun hs => { hsound.bounded hs with }⟩, ?_, ?_⟩, hheight, (opcode, data), ?_⟩
      · change s.opcode_pos + 1 ≤ m'.pc
        omega
      · change m'.pc ≤ env.script.length
        omega
      · change get_op env.script s.pc = (some (opcode, data), m'.pc)
        rw [hpc]
        exact hop
    · rintro s e rfl ho
      rw [eval_step_eq_turn hop] at ho
      exact hturn.stops s e hm.sound ho

theorem eval_loop_ends [Digests] (hsized : safe → Digests.Sized) (hversion : safe → env.sigversion ≠ .Taproot)
    (hshort : safe → env.script.length < 2 ^ 32) (fuel : ℕ) (hm : Turning safe env m)
    (hfuel : env.script.length ≤ m.pc + fuel) :
    Triple (Admits safe) (Halts safe) (· = m) (eval_loop env fuel) fun _ m' =>
      Turning safe env m' ∧ env.script.length ≤ m'.pc ∧
        (m' = m ∨ m'.stack.length + m'.altstack.length ≤ MAX_STACK_SIZE) := by
  induction fuel generalizing m with
  | zero =>
    refine Triple.pure () ?_
    rintro m rfl
    exact ⟨hm, hfuel, Or.inl rfl⟩
  | succ fuel ih =>
    refine Triple.bind Triple.get fun s => Triple.assume ?_
    rintro s ⟨rfl, rfl⟩
    refine Triple.ite (fun _ => ?_) fun hend => Triple.pure () ?_
    · refine Triple.bind (eval_step_turns hsized hversion hshort hm) fun _ => Triple.assume fun m' hm' => ?_
      obtain ⟨op, hop⟩ := hm'.read
      have hnext := (get_op_bounds hop).1
      refine Triple.weaken (ih hm'.turning (by omega)) (fun _ h => h) fun _ m'' h => ⟨h.1, h.2.1, Or.inr ?_⟩
      rcases h.2.2 with rfl | hheight
      · exact hm'.height
      · exact hheight
    · rintro m rfl
      exact ⟨hm, Nat.not_lt.mp hend, Or.inl rfl⟩

end

def Payable (execdata : ExecutionData) : Prop :=
  I64_MIN + VALIDATION_WEIGHT_PER_SIGOP_PASSED ≤ execdata.validation_weight_left ∧
    execdata.validation_weight_left ≤ I64_MAX

theorem start_turning {safe : Prop} (env : Env) {stack : List Element} {execdata : ExecutionData}
    (hsmall : safe → ∀ v ∈ stack, Small v) (hweight : safe → Payable execdata) :
    Turning safe env (Machine.start stack execdata) where
  sound := ⟨rfl, rfl, fun hs => ⟨Nat.zero_le _, hsmall hs, nofun, Int.le_refl _,
    show (0 : ℤ) ≤ MAX_OPS_PER_SCRIPT by decide, Nat.zero_le _, (hweight hs).1,
    (hweight hs).2, Nat.zero_le _⟩⟩
  behind := Nat.zero_le _
  inside := Nat.zero_le _

def Steps [Digests] (env : Env) (m m' : Machine) : Prop :=
  m.pc < env.script.length ∧ (eval_step env m).Outcome Lawful (.ok ((), m'))

def Comes [Digests] (env : Env) (stack : List Element) (execdata : ExecutionData) (m : Machine) : Prop :=
  ¬(env.pre_tapscript ∧ MAX_SCRIPT_SIZE < env.script.length) ∧
    Relation.ReflTransGen (Steps env) (Machine.start stack execdata) m

def ShortFor (env : Env) : Prop := env.pre_tapscript = true ∨ env.script.length < 2 ^ 32

theorem ShortFor.short {env : Env} (h : ShortFor env)
    (hrun : ¬(env.pre_tapscript ∧ MAX_SCRIPT_SIZE < env.script.length)) :
    env.script.length < 2 ^ 32 := by
  rcases h with hpre | hshort
  · have hlen : ¬MAX_SCRIPT_SIZE < env.script.length := fun hlong => hrun ⟨hpre, hlong⟩
    unfold MAX_SCRIPT_SIZE at hlen
    omega
  · exact hshort

structure Fit (stack : List Element) (env : Env) (execdata : ExecutionData) : Prop where
  version : env.sigversion ≠ .Taproot
  short : ShortFor env
  height : stack.length ≤ MAX_STACK_SIZE
  small : ∀ v ∈ stack, v.length ≤ MAX_SCRIPT_ELEMENT_SIZE
  payable : Payable execdata

/-- A computation that runs scripts in the environments of `good` only. -/
inductive Calls [Digests] (good : Env → Prop) : {α : Type} → Verify α → Prop
  | pure {α : Type} (a : α) : Calls good (Pure.pure a : Verify α)
  | fail {α : Type} (e : ScriptError) : Calls good (fail e : Verify α)
  | attempt {α : Type} (x : Except ScriptError α) : Calls good (attempt x : Verify α)
  | ask (q : Query) : Calls good (Exec.ask q : Verify (Answer q))
  | bind {α β : Type} {f : Verify α} {k : α → Verify β} (hf : Calls good f) (hk : ∀ a, Calls good (k a)) :
      Calls good (f >>= k)
  | eval_script (stack : List Element) (env : Env) (execdata : ExecutionData) (h : good env) :
      Calls good (eval_script stack env execdata)

theorem Turning.limited {env : Env} {m : Machine} (h : Turning True env m)
    (hheight : m.stack.length + m.altstack.length ≤ MAX_STACK_SIZE) : Limited m where
  height := hheight
  small := fun v hv => by
    have hbounded := h.sound.bounded trivial
    rcases List.mem_append.mp hv with hv | hv
    · exact hbounded.small v hv
    · exact hbounded.small_alt v hv

section Runs

variable [Digests] {safe : Prop}

variable {stack : List Element} {execdata : ExecutionData}

theorem eval_machine_ends (hsized : safe → Digests.Sized) {env : Env} (hfit : safe → Fit stack env execdata) :
    Triple (Admits safe) (Halts safe) (· = Machine.start stack execdata) (eval_machine env)
      fun _ m => Turning safe env m := by
  refine Triple.ite (fun _ => Triple.throw fun _ _ _ => nofun) fun hrun => ?_
  have hstart : Turning safe env (Machine.start stack execdata) :=
    start_turning env (fun hs => (hfit hs).small) fun hs => (hfit hs).payable
  refine Triple.bind (eval_loop_ends hsized (fun hs => (hfit hs).version) (fun hs => (hfit hs).short.short hrun)
    env.script.length hstart (Nat.le_add_left _ _)) fun _ => ?_
  refine Triple.bind Triple.get fun m => Triple.assume ?_
  rintro m ⟨rfl, hm⟩
  refine Triple.ite (fun _ => Triple.throw fun _ _ _ => nofun) fun _ => Triple.pure () ?_
  rintro m rfl
  exact hm.1

theorem eval_script_runs (hsized : safe → Digests.Sized) {env : Env} (hfit : safe → Fit stack env execdata) :
    Triple (Admits safe) (Halts safe) (fun _ => True) (eval_script stack env execdata)
      fun stack _ => safe → ∀ v ∈ stack, Small v := by
  refine Triple.bind (C := fun m _ => Turning safe env m) (Triple.within fun _ _ => eval_machine_ends hsized hfit)
    fun m => Triple.pure _ fun _ hm hs => ?_
  exact (hm.sound.bounded hs).small

theorem Comes.limited (hsized : Digests.Sized) {env : Env} (hfit : Fit stack env execdata) {m : Machine}
    (h : Comes env stack execdata m) :
    Turning True env m ∧ m.stack.length + m.altstack.length ≤ MAX_STACK_SIZE := by
  obtain ⟨hrun, hreach⟩ := h
  induction hreach with
  | refl => exact ⟨start_turning env (fun _ => hfit.small) fun _ => hfit.payable, hfit.height⟩
  | tail _ hstep ih =>
    have hturn := eval_step_turns (fun _ => hsized) (fun _ => hfit.version) (fun _ => hfit.short.short hrun) ih.1
    have hturned := hturn.ends _ _ _ rfl (hstep.2.mono fun _ _ h _ => h)
    exact ⟨hturned.turning, hturned.height⟩

variable {good : Env → Prop}

theorem Calls.ite {α : Type} {f g : Verify α} {p : Prop} [Decidable p] (hf : Calls good f) (hg : Calls good g) :
    Calls good (if p then f else g) := by
  split
  · exact hf
  · exact hg

theorem execute_witness_script_calls (stack : List Element) (script : Script) (flags : ScriptFlags)
    (sigversion : SigVersion) (execdata : ExecutionData) (h : good ⟨script, flags, sigversion⟩) :
    Calls good (execute_witness_script stack script flags sigversion execdata) := by
  unfold execute_witness_script
  generalize (if sigversion = .Tapscript then find_op_success script script.length 0 else none) = found
  cases found with
  | none =>
    refine Calls.ite (Calls.fail _) (Calls.ite (Calls.fail _) ((Calls.eval_script _ _ _ h).bind fun stack => ?_))
    cases stack with
    | nil => exact Calls.fail _
    | cons elem rest => exact Calls.ite (Calls.fail _) (Calls.ite (Calls.fail _) (Calls.pure ()))
  | some found =>
    cases found with
    | false => exact Calls.fail _
    | true => exact Calls.ite (Calls.fail _) (Calls.pure ())

variable (witness : List Element)

theorem verify_taproot_calls (program : List UInt8) (flags : ScriptFlags)
    (h : ∀ script, good ⟨script, flags, .Tapscript⟩) : Calls good (verify_taproot witness program flags) := by
  refine Calls.ite (Calls.pure ()) ?_
  rcases split_annex witness with ⟨annex, _ | ⟨control, _ | ⟨script, stack⟩⟩⟩
  · exact Calls.fail _
  · exact (Calls.ask _).bind fun answer => Calls.attempt _
  · refine Calls.ite (Calls.fail _) ((Calls.ask _).bind fun committed => Calls.ite (Calls.fail _) ?_)
    refine Calls.ite (execute_witness_script_calls _ _ _ _ _ (h script)) ?_
    exact Calls.ite (Calls.fail _) (Calls.pure ())

theorem verify_witness_program_calls (witversion : UInt8) (program : List UInt8) (flags : ScriptFlags)
    (is_p2sh : Bool) (hv0 : ∀ script, good ⟨script, flags, .WitnessV0⟩)
    (htapscript : ∀ script, good ⟨script, flags, .Tapscript⟩) :
    Calls good (verify_witness_program witness witversion program flags is_p2sh) := by
  refine Calls.ite (Calls.ite ?_ (Calls.ite (Calls.ite (Calls.fail _) ?_) (Calls.fail _))) ?_
  · cases witness with
    | nil => exact Calls.fail _
    | cons script rest =>
      exact Calls.ite (Calls.fail _) (execute_witness_script_calls _ _ _ _ _ (hv0 script))
  · exact execute_witness_script_calls _ _ _ _ _ (hv0 _)
  · refine Calls.ite (verify_taproot_calls _ _ _ htapscript) (Calls.ite (Calls.pure ()) ?_)
    exact Calls.ite (Calls.fail _) (Calls.pure ())

theorem verify_program_calls (witness stack : List Element) (script script_sig expected : Script) (e : ScriptError)
    (flags : ScriptFlags) (is_p2sh : Bool) (hv0 : ∀ script, good ⟨script, flags, .WitnessV0⟩)
    (htapscript : ∀ script, good ⟨script, flags, .Tapscript⟩) :
    Calls good (verify_program witness stack script script_sig expected e flags is_p2sh) := by
  unfold verify_program
  generalize (if contains flags WITNESS then witness_program script else none) = program
  cases program with
  | none => exact Calls.pure _
  | some program =>
    refine Calls.ite (Calls.fail _) ?_
    exact (verify_witness_program_calls _ _ _ _ _ hv0 htapscript).bind fun _ => Calls.pure _

theorem check_top_calls (stack : List Element) : Calls good (check_top stack) := by
  cases stack with
  | nil => exact Calls.fail _
  | cons elem rest => exact Calls.ite (Calls.pure ()) (Calls.fail _)

theorem verify_script_calls (script_sig script_pubkey : Script) (witness : List Element) (flags : ScriptFlags) :
    Calls (fun env => env.sigversion ≠ .Taproot) (verify_script script_sig script_pubkey witness flags) := by
  refine Calls.bind (Calls.ite (Calls.fail _) (Calls.pure ())) fun _ => ?_
  refine (Calls.eval_script _ _ _ nofun).bind fun stack_copy => (Calls.eval_script _ _ _ nofun).bind fun stack => ?_
  refine (check_top_calls stack).bind fun _ => ?_
  refine (verify_program_calls _ _ _ _ _ _ _ _ (fun _ => nofun) fun _ => nofun).bind fun bare =>
    Calls.bind (Calls.ite ?_ (Calls.pure _))
    fun ended => Calls.bind (Calls.ite (Calls.fail _) (Calls.pure ())) fun _ =>
      Calls.ite (Calls.fail _) (Calls.pure ())
  refine Calls.ite (Calls.fail _) ((Calls.eval_script _ _ _ nofun).bind fun stack => ?_)
  refine (check_top_calls stack).bind fun _ => ?_
  exact (verify_program_calls _ _ _ _ _ _ _ _ (fun _ => nofun) fun _ => nofun).bind fun wrapped => Calls.pure _

end Runs

def read_bytes : List UInt8 → ℕ → BitVec 64 → Option (BitVec 64)
  | [], _, value => some value
  | byte :: bytes, i, value =>
    if 8 * i < 64 then read_bytes bytes (i + 1) (value ||| BitVec.ofNat 64 byte.toNat <<< (8 * i)) else none

def script_num_indexed (vch : List UInt8) (require_minimal : Bool) (max_size : ℕ) : Option (Except ScriptError ℤ) :=
  if max_size < vch.length then some (.error .UnknownError)
  else do
    if ← and_then (some (require_minimal && !vch.isEmpty)) (and_then (byte_is vch (vch.length - 1) (· &&& 0x7f == 0))
        (or_else (some (decide (vch.length ≤ 1))) (byte_is vch (vch.length - 2) (· &&& 0x80 == 0)))) then
      return .error .UnknownError
    let value ← read_bytes vch 0 0
    if ← and_then (some !vch.isEmpty) (byte_is vch (vch.length - 1) (· &&& 0x80 != 0)) then
      if 8 * (vch.length - 1) < 64 then
        let negated := -(value &&& ~~~((0x80 : BitVec 64) <<< (8 * (vch.length - 1)))).toInt
        if i64_fits negated then return .ok negated else none
      else none
    else return .ok value.toInt

theorem read_bytes_eq (i : ℕ) (value : BitVec 64) (h : i + vch.length ≤ 8) :
    read_bytes vch i value =
      some ((vch.zipIdx i).foldl (fun value b => value ||| BitVec.ofNat 64 b.1.toNat <<< (8 * b.2)) value) := by
  induction vch generalizing i value with
  | nil => rfl
  | cons byte bytes ih =>
    rw [List.length_cons] at h
    rw [read_bytes, if_pos (by omega), ih _ _ (by omega), List.zipIdx_cons, List.foldl_cons]

theorem byte_is_last {vch : List UInt8} (h : vch ≠ []) (p : UInt8 → Bool) :
    byte_is vch (vch.length - 1) p = some (p (vch.getLastD 0)) := by
  have hlen := List.length_pos_iff.mpr h
  rw [byte_is_at (by omega), List.getLastD_eq_getLast?, List.getLast?_eq_getElem?, List.getD_eq_getElem?_getD]

theorem script_num_indexed_eq (require_minimal : Bool) {max_size : ℕ} (hsize : max_size ≤ 5) :
    script_num_indexed vch require_minimal max_size = some (script_num vch require_minimal max_size) := by
  by_cases hlen : max_size < vch.length
  · simp only [script_num_indexed, script_num, if_pos hlen]
  cases hempty : vch.isEmpty with
  | true =>
    rw [List.isEmpty_iff.mp hempty]
    cases require_minimal <;> simp [script_num_indexed, script_num, and_then, read_bytes]
  | false =>
    have hne : vch ≠ [] := by
      rintro rfl
      cases hempty
    have hpos := List.length_pos_iff.mpr hne
    have hread := read_bytes_eq vch 0 0 (by omega)
    have hsecond : or_else (some (decide (vch.length ≤ 1))) (byte_is vch (vch.length - 2) (· &&& 0x80 == 0)) =
        some (decide (vch.length ≤ 1) || vch.getD (vch.length - 2) 0 &&& 0x80 == 0) := by
      rw [byte_is_at (by omega), or_else_some]
    have hbound : ∀ n, script_num vch false max_size = .ok n → n.natAbs < 256 ^ 5 :=
      fun n => script_num_natAbs_lt hsize
    unfold script_num_indexed
    unfold script_num at hbound ⊢
    simp only [if_neg hlen, hempty, byte_is_last hne, hsecond, hread, and_then_some, Option.bind_eq_bind,
      Option.bind_some, Option.pure_def, Bool.not_false, Bool.and_true, Bool.true_and, Bool.false_and,
      Bool.false_eq_true, if_false] at hbound ⊢
    generalize (vch.zipIdx.foldl (fun value b => value ||| BitVec.ofNat 64 b.1.toNat <<< (8 * b.2))
      (0 : BitVec 64)) = x
      at hbound ⊢
    have hshift : 8 * (vch.length - 1) < 64 := by omega
    by_cases hmin : (require_minimal && (vch.getLastD 0 &&& 0x7f == 0 &&
        (decide (vch.length ≤ 1) || vch.getD (vch.length - 2) 0 &&& 0x80 == 0))) = true
    · simp only [Bool.and_assoc, hmin, if_true]
    · simp only [Bool.and_assoc, hmin, Bool.false_eq_true, if_false]
      by_cases hsign : (vch.getLastD 0 &&& 0x80 != 0) = true
      · simp only [hsign, if_true, if_pos hshift] at hbound ⊢
        rw [if_pos]
        have hsmall := hbound _ rfl
        rw [i64_fits_iff]
        unfold I64_MIN I64_MAX
        omega
      · simp only [hsign, Bool.false_eq_true, if_false]

abbrev Digests.blank : Digests :=
    ⟨fun _ => List.replicate 32 0, fun _ => List.replicate 20 0, fun _ => List.replicate 20 0⟩

attribute [local instance] Digests.blank

def draining : (q : Query) → Answer q
  | .check_ecdsa_signature .. => true
  | .check_schnorr_signature _ _ _ execdata => (.ok (), { execdata with validation_weight_left := I64_MIN })
  | .check_locktime _ => true
  | .check_sequence _ => true
  | .verify_taproot_commitment .. => true

theorem nop_turn {k : ℕ} (hk : script[k]? = some OP_NOP) :
    eval_step ⟨script, 0, .Tapscript⟩ { Machine.start [] .default with pc := k, opcode_pos := k } =
      if 2 ^ 32 ≤ k + 1 then .done (.error .panic)
      else .done (.ok ((), { Machine.start [] .default with pc := k + 1, opcode_pos := k + 1 })) := by
  have hop : get_op script k = (some (OP_NOP, []), k + 1) := by
    unfold get_op
    rw [hk]
    rfl
  have hstep : eval_step ⟨script, 0, .Tapscript⟩ { Machine.start [] .default with pc := k, opcode_pos := k } =
      next_opcode { Machine.start [] .default with pc := k + 1, opcode_pos := k } := by
    rw [eval_step_eq_turn hop]
    rfl
  rw [hstep]
  by_cases hfull : 2 ^ 32 ≤ k + 1
  · rw [if_pos hfull]
    change (if 2 ^ 32 ≤ k + 1 then panics else _ : Run Unit) _ = _
    rw [if_pos hfull]
    rfl
  · rw [if_neg hfull]
    change (if 2 ^ 32 ≤ k + 1 then panics else _ : Run Unit) _ = _
    rw [if_neg hfull]
    rfl

theorem nops_panic (hscript : ∀ k < 2 ^ 32, script[k]? = some OP_NOP) (fuel k : ℕ) (hk : k < 2 ^ 32)
    (hfuel : 2 ^ 32 ≤ k + fuel) :
    (eval_loop ⟨script, 0, .Tapscript⟩ fuel
      { Machine.start [] .default with pc := k, opcode_pos := k }).Outcome Lawful
      (.error .panic) := by
  induction fuel generalizing k with
  | zero => omega
  | succ fuel ih =>
    have hlen := (List.getElem?_eq_some_iff.mp (hscript k hk)).1
    refine outcome_bind.mpr (Or.inl ⟨_, _, .done _, ?_⟩)
    rw [if_pos hlen]
    have hturn := nop_turn (hscript k hk)
    by_cases hfull : 2 ^ 32 ≤ k + 1
    · rw [if_pos hfull] at hturn
      refine outcome_bind.mpr (Or.inr ⟨.panic, ?_, rfl⟩)
      rw [hturn]
      exact .done _
    · rw [if_neg hfull] at hturn
      refine outcome_bind.mpr
        (Or.inl ⟨(), { Machine.start [] .default with pc := k + 1, opcode_pos := k + 1 }, ?_, ?_⟩)
      · rw [hturn]
        exact .done _
      · exact ih (k + 1) (by omega) (by omega)

end AvilaNode.Interpreter
