import AvilaNode.Interpreter

/-! A flag only adds failures: a script that passes under some flags passes under any of them. -/

namespace AvilaNode.Interpreter

open OraclePrograms Exec

variable {S α : Type} {answer : (q : Query) → Answer q} {flags sub : ScriptFlags}

theorem contains_of_contains (h : contains flags sub = true) {flag : ScriptFlags} (hf : contains sub flag = true) :
    contains flags flag = true := by
  simp only [contains, beq_iff_eq] at h hf ⊢
  rw [← hf, ← Nat.and_assoc, h]

theorem land_ne_zero (h : contains flags sub = true) {family : ScriptFlags} (hf : sub &&& family ≠ 0) :
    flags &&& family ≠ 0 := by
  simp only [contains, beq_iff_eq] at h
  intro h0
  apply hf
  rw [← h, Nat.and_comm flags, Nat.and_assoc, h0, Nat.and_zero]

theorem Quiet.fail (e : ScriptError) : Quiet answer (fail e : Exec Answer S Halt α) := Quiet.throw _

theorem Quiet.attempt (x : Except ScriptError α) : Quiet answer (attempt x : Exec Answer S Halt α) := Quiet.lift _

theorem Quiet.top (n : ℕ) : Quiet answer (top n) := by
  refine Quiet.get.bind fun m => ?_
  split
  · exact Quiet.throw _
  · exact Quiet.throw _
  · exact Quiet.pure _

theorem Quiet.require (n : ℕ) (e : ScriptError) : Quiet answer (require n e) :=
  Quiet.get.bind fun _ => Quiet.ite (Quiet.fail _) (Quiet.pure _)

theorem Quiet.number (env : Env) (n max_size : ℕ) : Quiet answer (number env n max_size) :=
  (Quiet.top n).bind fun _ => Quiet.attempt _

theorem Follows.attempt {x y : Except ScriptError α} (h : ∀ a, x = .ok a → y = .ok a) :
    Follows answer (attempt x : Exec Answer S Halt α) (attempt y) := by
  cases x with
  | error e => exact Follows.throw _ _
  | ok a =>
    rw [h a rfl]
    exact Follows.refl _

theorem script_num_of_minimal {vch : List UInt8} {minimal minimal' : Bool} {max_size : ℕ} (h : minimal' → minimal)
    (n : ℤ) (hn : script_num vch minimal max_size = .ok n) : script_num vch minimal' max_size = .ok n := by
  unfold script_num at hn ⊢
  dsimp only at hn ⊢
  split at hn
  · cases hn
  · next hlen =>
    rw [if_neg hlen]
    split at hn
    · cases hn
    · next hmin =>
      rw [if_neg, hn]
      intro hc
      apply hmin
      simp only [Bool.and_eq_true] at hc ⊢
      exact ⟨⟨⟨h hc.1.1.1, hc.1.1.2⟩, hc.1.2⟩, hc.2⟩

theorem check_signature_encoding_of_contains (h : contains flags sub = true) {sig : List UInt8} (u : Unit)
    (hs : check_signature_encoding sig flags = .ok u) : check_signature_encoding sig sub = .ok u := by
  unfold check_signature_encoding at hs ⊢
  split at hs
  · next he => rw [if_pos he]
  · next he =>
    rw [if_neg he]
    split at hs
    · cases hs
    · next hder =>
      rw [if_neg fun hc => hder ⟨land_ne_zero h hc.1, hc.2⟩]
      split at hs
      · cases hs
      · next hlow =>
        have hlow' : (if contains sub LOW_S then check_signature_encoding_low_s sig else .ok ()) = .ok () := by
          split
          · next hc => rwa [if_pos (contains_of_contains h hc)] at hlow
          · rfl
        rw [hlow']
        split at hs
        · cases hs
        · next htype => rw [if_neg fun hc => htype ⟨contains_of_contains h hc.1, hc.2⟩]

theorem check_pubkey_encoding_of_contains (h : contains flags sub = true) {pubkey : List UInt8}
    {sigversion : SigVersion} (u : Unit) (hs : check_pubkey_encoding pubkey flags sigversion = .ok u) :
    check_pubkey_encoding pubkey sub sigversion = .ok u := by
  unfold check_pubkey_encoding at hs ⊢
  split at hs
  · cases hs
  · next hstrict =>
    rw [if_neg fun hc => hstrict ⟨contains_of_contains h hc.1, hc.2⟩]
    split at hs
    · cases hs
    · next hwitness => rw [if_neg fun hc => hwitness ⟨contains_of_contains h hc.1, hc.2⟩]

section
variable (h : contains flags sub = true) (script : Script) (sigversion : SigVersion)
include h

theorem number_follows (n max_size : ℕ) : Follows answer (number ⟨script, flags, sigversion⟩ n max_size)
    (number ⟨script, sub, sigversion⟩ n max_size) :=
  (Follows.refl _).bind fun _ => Follows.attempt fun n hn => script_num_of_minimal (contains_of_contains h) n hn

theorem op_checklocktimeverify_follows : Follows answer (op_checklocktimeverify ⟨script, flags, sigversion⟩)
    (op_checklocktimeverify ⟨script, sub, sigversion⟩) := by
  unfold op_checklocktimeverify Env.has
  by_cases hs : contains sub CHECKLOCKTIMEVERIFY = true
  · simp only [hs, contains_of_contains h hs, Bool.not_true, Bool.false_eq_true, if_false]
    exact (Follows.refl _).bind fun _ => (number_follows h script sigversion 1 5).bind fun _ => Follows.refl _
  · simp only [hs, Bool.not_false, if_true]
    refine (Quiet.ite (Quiet.pure ())
      ((Quiet.require _ _).bind fun _ => (Quiet.number _ _ _).bind fun _ => ?_)).follows
    exact Quiet.ite (Quiet.fail _) ((Quiet.ask _).bind fun _ => Quiet.ite (Quiet.fail _) (Quiet.pure _))

theorem op_checksequenceverify_follows : Follows answer (op_checksequenceverify ⟨script, flags, sigversion⟩)
    (op_checksequenceverify ⟨script, sub, sigversion⟩) := by
  unfold op_checksequenceverify Env.has
  by_cases hs : contains sub CHECKSEQUENCEVERIFY = true
  · simp only [hs, contains_of_contains h hs, Bool.not_true, Bool.false_eq_true, if_false]
    exact (Follows.refl _).bind fun _ => (number_follows h script sigversion 1 5).bind fun _ => Follows.refl _
  simp only [hs, Bool.not_false, if_true]
  refine (Quiet.ite (Quiet.pure ())
    ((Quiet.require _ _).bind fun _ => (Quiet.number _ _ _).bind fun _ => ?_)).follows
  refine Quiet.ite (Quiet.fail _) (Quiet.ite (Quiet.pure _) ((Quiet.ask _).bind fun _ => ?_))
  exact Quiet.ite (Quiet.fail _) (Quiet.pure _)

variable (opcode : UInt8)

theorem op_if_follows (f_exec : Bool) : Follows answer
    (op_if ⟨script, flags, sigversion⟩ opcode f_exec) (op_if ⟨script, sub, sigversion⟩ opcode f_exec) := by
  refine Follows.ite ((Follows.refl _).bind fun _ => (Follows.refl _).bind fun vch => ?_) (Follows.refl _)
  refine Follows.bind ?_ fun _ => Follows.refl _
  refine Follows.ite (Follows.refl _) (Follows.check ?_ (Follows.refl _))
  exact fun hc => ⟨hc.1, contains_of_contains h hc.2.1, hc.2.2⟩

theorem op_pick_follows : Follows answer (op_pick ⟨script, flags, sigversion⟩ opcode)
    (op_pick ⟨script, sub, sigversion⟩ opcode) :=
  (Follows.refl _).bind fun _ => (number_follows h script sigversion _ _).bind fun _ => Follows.refl _

theorem op_unary_follows : Follows answer (op_unary ⟨script, flags, sigversion⟩ opcode)
    (op_unary ⟨script, sub, sigversion⟩ opcode) :=
  (Follows.refl _).bind fun _ => (number_follows h script sigversion _ _).bind fun _ => Follows.refl _

theorem op_binary_follows : Follows answer (op_binary ⟨script, flags, sigversion⟩ opcode)
    (op_binary ⟨script, sub, sigversion⟩ opcode) :=
  (Follows.refl _).bind fun _ => (number_follows h script sigversion _ _).bind fun _ =>
    (number_follows h script sigversion _ _).bind fun _ => Follows.refl _

theorem op_within_follows : Follows answer (op_within ⟨script, flags, sigversion⟩)
    (op_within ⟨script, sub, sigversion⟩) :=
  (Follows.refl _).bind fun _ => (number_follows h script sigversion _ _).bind fun _ =>
    (number_follows h script sigversion _ _).bind fun _ =>
      (number_follows h script sigversion _ _).bind fun _ => Follows.refl _

theorem drop_signature_follows (code sig : List UInt8) : Follows answer
    (drop_signature ⟨script, flags, sigversion⟩ code sig) (drop_signature ⟨script, sub, sigversion⟩ code sig) :=
  Follows.check (fun hc => ⟨hc.1, contains_of_contains h hc.2⟩) (Follows.refl _)

theorem check_encodings_follows (sig pubkey : Element) : Follows answer
    (check_encodings ⟨script, flags, sigversion⟩ sig pubkey) (check_encodings ⟨script, sub, sigversion⟩ sig pubkey) :=
  (Follows.attempt (check_signature_encoding_of_contains h)).bind fun _ =>
    Follows.attempt (check_pubkey_encoding_of_contains h)

theorem eval_checksig_follows (sig pubkey : Element) : Follows answer
    (eval_checksig ⟨script, flags, sigversion⟩ sig pubkey) (eval_checksig ⟨script, sub, sigversion⟩ sig pubkey) := by
  have hpre : Follows answer (eval_checksig_pre_tapscript ⟨script, flags, sigversion⟩ sig pubkey)
      (eval_checksig_pre_tapscript ⟨script, sub, sigversion⟩ sig pubkey) := by
    refine Follows.bind ((Follows.refl _).bind fun code => ?_) fun code => ?_
    · exact Follows.ite (drop_signature_follows h script sigversion code sig) (Follows.refl _)
    · refine (check_encodings_follows h script sigversion sig pubkey).bind fun _ => ?_
      refine (Follows.refl _).bind fun success => Follows.bind ?_ fun _ => Follows.refl _
      exact Follows.check (fun hc => ⟨hc.1, contains_of_contains h hc.2.1, hc.2.2⟩) (Follows.refl _)
  cases sigversion with
  | Base => exact hpre
  | WitnessV0 => exact hpre
  | Taproot => exact Follows.refl _
  | Tapscript =>
    have hkey : Follows answer (check_tapscript_key ⟨script, flags, .Tapscript⟩ sig pubkey)
        (check_tapscript_key ⟨script, sub, .Tapscript⟩ sig pubkey) := by
      refine Follows.ite (Follows.refl _) (Follows.ite (Follows.refl _) ?_)
      exact Follows.check (contains_of_contains h) (Follows.refl _)
    have hrest := hkey.bind fun _ => Follows.refl (Pure.pure (!sig.isEmpty) : Run Bool)
    exact Follows.ite ((Follows.refl _).bind fun _ => hrest) hrest

theorem op_checksig_follows : Follows answer (op_checksig ⟨script, flags, sigversion⟩ opcode)
    (op_checksig ⟨script, sub, sigversion⟩ opcode) :=
  (Follows.refl _).bind fun _ => (Follows.refl _).bind fun _ => (Follows.refl _).bind fun _ =>
    (eval_checksig_follows h script sigversion _ _).bind fun _ => Follows.refl _

theorem op_checksigadd_follows : Follows answer (op_checksigadd ⟨script, flags, sigversion⟩)
    (op_checksigadd ⟨script, sub, sigversion⟩) := by
  refine Follows.ite (Follows.refl _) ((Follows.refl _).bind fun _ => (Follows.refl _).bind fun sig => ?_)
  refine (number_follows h script sigversion _ _).bind fun num => (Follows.refl _).bind fun pubkey => ?_
  exact (eval_checksig_follows h script sigversion sig pubkey).bind fun _ => Follows.refl _

theorem drop_signatures_follows (isig count : ℕ) (code : List UInt8) : Follows answer
    (drop_signatures ⟨script, flags, sigversion⟩ isig count code)
    (drop_signatures ⟨script, sub, sigversion⟩ isig count code) := by
  induction count generalizing isig code with
  | zero => exact Follows.refl _
  | succ count ih =>
    exact (Follows.refl _).bind fun sig => (drop_signature_follows h script sigversion code sig).bind fun code =>
      ih (isig + 1) code

theorem match_signatures_follows (code : List UInt8) (isig sigs_count ikey keys_count : ℕ) : Follows answer
    (match_signatures ⟨script, flags, sigversion⟩ code isig sigs_count ikey keys_count)
    (match_signatures ⟨script, sub, sigversion⟩ code isig sigs_count ikey keys_count) := by
  induction keys_count generalizing isig sigs_count ikey with
  | zero => cases sigs_count <;> exact Follows.refl _
  | succ keys_count ih =>
    cases sigs_count with
    | zero => exact Follows.refl _
    | succ sigs_count =>
      refine (Follows.refl _).bind fun sig => (Follows.refl _).bind fun pubkey => ?_
      refine (check_encodings_follows h script sigversion sig pubkey).bind fun _ => (Follows.refl _).bind fun ok => ?_
      exact Follows.ite (Follows.refl _) (ih _ _ _)

theorem check_null_fail_top_follows (success : Bool) (ikey2 : ℕ) : Follows answer
    (check_null_fail_top ⟨script, flags, sigversion⟩ success ikey2)
    (check_null_fail_top ⟨script, sub, sigversion⟩ success ikey2) := by
  unfold check_null_fail_top Env.has
  by_cases hs : contains sub NULLFAIL = true
  · simp only [hs, contains_of_contains h hs]
    exact Follows.refl _
  · simp only [hs, Bool.false_eq_true, false_and, and_false, if_false]
    refine (Quiet.ite ((Quiet.top _).bind fun _ => ?_) (Quiet.pure _)).follows
    exact Quiet.ite (Quiet.fail _) (Quiet.pure _)

theorem pop_arguments_follows (success : Bool) (i ikey2 : ℕ) : Follows answer
    (pop_arguments ⟨script, flags, sigversion⟩ success i ikey2)
    (pop_arguments ⟨script, sub, sigversion⟩ success i ikey2) := by
  induction i generalizing ikey2 with
  | zero => exact Follows.refl _
  | succ i ih =>
    exact (check_null_fail_top_follows h script sigversion success ikey2).bind fun _ =>
      (Follows.refl _).bind fun _ => ih (ikey2 - 1)

theorem check_null_dummy_follows : Follows answer (check_null_dummy ⟨script, flags, sigversion⟩)
    (check_null_dummy ⟨script, sub, sigversion⟩) := by
  unfold check_null_dummy Env.has
  by_cases hs : contains sub NULLDUMMY = true
  · simp only [hs, contains_of_contains h hs]
    exact Follows.refl _
  · simp only [hs, Bool.false_eq_true, if_false]
    refine (Quiet.ite ((Quiet.top _).bind fun _ => ?_) (Quiet.pure _)).follows
    exact Quiet.ite (Quiet.fail _) (Quiet.pure _)

theorem op_checkmultisig_follows : Follows answer
    (op_checkmultisig ⟨script, flags, sigversion⟩ opcode) (op_checkmultisig ⟨script, sub, sigversion⟩ opcode) := by
  have hnumber (n : ℕ) : Follows answer (number ⟨script, flags, sigversion⟩ n MAX_SCRIPTNUM_SIZE)
      (number ⟨script, sub, sigversion⟩ n MAX_SCRIPTNUM_SIZE) := number_follows h script sigversion n _
  refine Follows.ite (Follows.refl _) ((Follows.refl _).bind fun _ => (hnumber _).bind fun keys => ?_)
  refine Follows.ite (Follows.refl _) ((Follows.refl _).bind fun _ => (Follows.refl _).bind fun _ => ?_)
  refine (hnumber _).bind fun sigs => Follows.ite (Follows.refl _) ?_
  refine (Follows.refl _).bind fun _ => Follows.bind ((Follows.refl _).bind fun code => ?_) fun code => ?_
  · exact Follows.ite (drop_signatures_follows h script sigversion _ _ code) (Follows.refl _)
  · refine (match_signatures_follows h script sigversion code _ _ _ _).bind fun success => ?_
    refine (pop_arguments_follows h script sigversion success _ _).bind fun _ => (Follows.refl _).bind fun _ => ?_
    exact (check_null_dummy_follows h script sigversion).bind fun _ => Follows.refl _

variable [Digests]

theorem eval_op_follows (f_exec : Bool) : Follows answer
    (eval_op ⟨script, flags, sigversion⟩ opcode f_exec) (eval_op ⟨script, sub, sigversion⟩ opcode f_exec) := by
  refine Follows.ite (op_checklocktimeverify_follows h script sigversion) ?_
  refine Follows.ite (op_checksequenceverify_follows h script sigversion) ?_
  refine Follows.ite (Follows.check (contains_of_contains h) (Follows.refl _)) ?_
  refine Follows.ite (op_if_follows h script sigversion opcode f_exec) ?_
  refine Follows.ite (op_pick_follows h script sigversion opcode) ?_
  refine Follows.ite (op_unary_follows h script sigversion opcode) ?_
  refine Follows.ite (op_binary_follows h script sigversion opcode) ?_
  refine Follows.ite (op_within_follows h script sigversion) ?_
  refine Follows.ite (op_checksig_follows h script sigversion opcode) ?_
  refine Follows.ite (op_checksigadd_follows h script sigversion) ?_
  exact Follows.ite (op_checkmultisig_follows h script sigversion opcode) (Follows.refl _)

theorem execute_follows (data : Element) (f_exec : Bool) : Follows answer
    (execute ⟨script, flags, sigversion⟩ opcode data f_exec)
    (execute ⟨script, sub, sigversion⟩ opcode data f_exec) := by
  refine Follows.ite ?_ (Follows.ite (eval_op_follows h script sigversion opcode f_exec) (Follows.refl _))
  refine Follows.bind ?_ fun _ => Follows.refl _
  exact Follows.check (fun hc => ⟨contains_of_contains h hc.1, hc.2⟩) (Follows.refl _)

theorem eval_step_follows : Follows answer (eval_step ⟨script, flags, sigversion⟩)
    (eval_step ⟨script, sub, sigversion⟩) := by
  refine (Follows.refl _).bind fun m => ?_
  rcases get_op script m.pc with ⟨_ | ⟨opcode, data⟩, pc⟩
  · exact Follows.refl _
  · refine Follows.ite (Follows.refl _) ((Follows.refl _).bind fun _ => (Follows.refl _).bind fun _ => ?_)
    refine Follows.bind (Follows.ite (Follows.refl _) (Follows.check ?_ (Follows.refl _))) fun _ => ?_
    · exact fun hc => ⟨hc.1, hc.2.1, contains_of_contains h hc.2.2⟩
    · exact (execute_follows h script sigversion opcode data _).bind fun _ => Follows.refl _

theorem eval_loop_follows (fuel : ℕ) : Follows answer (eval_loop ⟨script, flags, sigversion⟩ fuel)
    (eval_loop ⟨script, sub, sigversion⟩ fuel) := by
  induction fuel with
  | zero => exact Follows.refl _
  | succ fuel ih =>
    refine (Follows.refl _).bind fun m => Follows.ite ?_ (Follows.refl _)
    exact (eval_step_follows h script sigversion).bind fun _ => ih

theorem eval_script_follows (stack : List Element) (execdata : ExecutionData) : Follows answer
    (eval_script stack ⟨script, flags, sigversion⟩ execdata)
    (eval_script stack ⟨script, sub, sigversion⟩ execdata) := by
  refine (Follows.within _ (Follows.ite (Follows.refl _) ?_)).bind fun _ => Follows.refl _
  exact (eval_loop_follows h script sigversion _).bind fun _ => Follows.refl _

theorem execute_witness_script_follows (stack : List Element) (execdata : ExecutionData) : Follows answer
    (execute_witness_script stack script flags sigversion execdata)
    (execute_witness_script stack script sub sigversion execdata) := by
  unfold execute_witness_script
  split
  · exact Follows.refl _
  · exact Follows.check (contains_of_contains h) (Follows.refl _)
  · refine Follows.ite (Follows.refl _) (Follows.ite (Follows.refl _) ?_)
    exact (eval_script_follows h script sigversion stack execdata).bind fun _ => Follows.refl _

end

section
variable [Digests] (h : contains flags sub = true)
include h

theorem verify_script_path_follows (witness stack : List Element) (control : Element) (script : Script)
    (program : List UInt8) (execdata : ExecutionData) : Follows answer
    (verify_script_path witness stack control script program flags execdata)
    (verify_script_path witness stack control script program sub execdata) := by
  refine Follows.ite (Follows.refl _) ((Follows.refl _).bind fun committed => Follows.ite (Follows.refl _) ?_)
  refine Follows.ite (execute_witness_script_follows h script _ stack _) ?_
  exact Follows.check (contains_of_contains h) (Follows.refl _)

variable (witness : List Element)

theorem verify_taproot_follows (program : List UInt8) : Follows answer
    (verify_taproot witness program flags) (verify_taproot witness program sub) := by
  unfold verify_taproot
  by_cases hs : contains sub TAPROOT = true
  · simp only [hs, contains_of_contains h hs, Bool.not_true, Bool.false_eq_true, if_false]
    split
    · exact Follows.refl _
    · exact Follows.refl _
    · exact verify_script_path_follows h witness _ _ _ program _
  · simp only [hs, Bool.not_false, if_true]
    exact fun _ _ _ => rfl

theorem verify_witness_program_follows (witversion : UInt8) (program : List UInt8) (is_p2sh : Bool) :
    Follows answer (verify_witness_program witness witversion program flags is_p2sh)
    (verify_witness_program witness witversion program sub is_p2sh) := by
  refine Follows.ite (Follows.ite ?_ (Follows.ite ?_ (Follows.refl _))) ?_
  · split
    · exact Follows.refl _
    · exact Follows.ite (Follows.refl _) (execute_witness_script_follows h _ _ _ _)
  · exact Follows.ite (Follows.refl _) (execute_witness_script_follows h _ _ _ _)
  · refine Follows.ite (verify_taproot_follows h witness program) (Follows.ite (Follows.refl _) ?_)
    exact Follows.check (contains_of_contains h) (Follows.refl _)

theorem verify_program_follows (hw : contains sub WITNESS = true) (witness stack : List Element)
    (script script_sig expected : Script) (e : ScriptError) (is_p2sh : Bool) : Follows answer
    (verify_program witness stack script script_sig expected e flags is_p2sh)
    (verify_program witness stack script script_sig expected e sub is_p2sh) := by
  unfold verify_program
  rw [if_pos (contains_of_contains h hw), if_pos hw]
  split
  · exact Follows.refl _
  · refine Follows.ite (Follows.refl _) ?_
    exact (verify_witness_program_follows h witness _ _ is_p2sh).bind fun _ => Follows.refl _

theorem verify_p2sh_follows (hw : contains sub WITNESS = true) (witness stack : List Element) (script_sig : Script)
    (had_witness : Bool) : Follows answer (verify_p2sh witness stack script_sig flags had_witness)
    (verify_p2sh witness stack script_sig sub had_witness) := by
  refine Follows.ite (Follows.refl _) ((eval_script_follows h _ _ _ _).bind fun stack => ?_)
  refine (Follows.refl _).bind fun _ => Follows.bind ?_ fun _ => Follows.refl _
  exact verify_program_follows h hw witness stack _ _ _ _ true

omit [Digests] in
theorem check_push_only_follows (script_sig : Script) : Follows answer (check_push_only flags script_sig)
    (check_push_only sub script_sig) :=
  Follows.check (fun hc => ⟨contains_of_contains h hc.1, hc.2⟩) (Follows.refl _)

omit [Digests] in
theorem check_clean_stack_follows (stack : List Element) : Follows answer (check_clean_stack flags stack)
    (check_clean_stack sub stack) :=
  Follows.check (fun hc => ⟨contains_of_contains h hc.1, hc.2⟩) (Follows.refl _)

omit [Digests] in
theorem check_witness_used_follows (had_witness : Bool) (witness : List Element) : Follows answer
    (check_witness_used flags had_witness witness) (check_witness_used sub had_witness witness) :=
  Follows.check (fun hc => ⟨contains_of_contains h hc.1, hc.2⟩) (Follows.refl _)

end

def verify_script_with [Digests] (answer : (q : Query) → Answer q) (script_sig script_pubkey : Script)
    (witness : List Element) (flags : ScriptFlags) : Except Halt Unit :=
  ((verify_script script_sig script_pubkey witness flags).eval answer ()).map Prod.fst

structure Respects (flags : ScriptFlags) : Prop where
  clean : contains flags CLEANSTACK = true → contains flags P2SH = true ∧ contains flags WITNESS = true
  witness : contains flags WITNESS = true → contains flags P2SH = true

section
variable [Digests] {script_sig script_pubkey : Script} {witness : List Element}

theorem verify_if_p2sh_follows (h : contains flags sub = true) (hp : contains sub P2SH = true)
    (hw : contains sub WITNESS = true) (stack : List Element) (bare : Bool × List Element) : Follows answer
    (verify_if_p2sh witness stack script_sig script_pubkey flags bare)
    (verify_if_p2sh witness stack script_sig script_pubkey sub bare) := by
  unfold verify_if_p2sh
  simp only [contains_of_contains h hp, hp, true_and]
  exact Follows.ite (verify_p2sh_follows h hw witness stack script_sig bare.1) (Follows.refl _)

theorem verify_script_follows (h : contains flags sub = true) (hp : contains sub P2SH = true)
    (hw : contains sub WITNESS = true) : Follows answer (verify_script script_sig script_pubkey witness flags)
    (verify_script script_sig script_pubkey witness sub) := by
  refine (check_push_only_follows h script_sig).bind fun _ => ?_
  refine (eval_script_follows h _ _ _ _).bind fun stack_copy => (eval_script_follows h _ _ _ _).bind fun stack => ?_
  refine (Follows.refl _).bind fun _ => (verify_program_follows h hw witness stack _ _ _ _ false).bind fun bare => ?_
  refine (verify_if_p2sh_follows h hp hw stack_copy bare).bind fun ended => ?_
  exact (check_clean_stack_follows h ended.2).bind fun _ => check_witness_used_follows h ended.1 witness

theorem verify_program_without (hw : contains sub WITNESS = false) (witness stack : List Element)
    (script script_sig expected : Script) (e : ScriptError) (is_p2sh : Bool) :
    verify_program witness stack script script_sig expected e sub is_p2sh = Pure.pure (false, stack) := by
  unfold verify_program
  rw [hw]
  rfl

theorem verify_if_p2sh_without (h : contains flags sub = true) (hw : contains sub WITNESS = false)
    {stack : List Element} {bare ended : Bool × List Element} (bare' : Bool × List Element)
    (hr : (verify_if_p2sh witness stack script_sig script_pubkey flags bare).eval answer () = .ok (ended, ())) :
    ∃ ended', (verify_if_p2sh witness stack script_sig script_pubkey sub bare').eval answer () =
      .ok (ended', ()) := by
  unfold verify_if_p2sh at hr ⊢
  by_cases hp : contains sub P2SH = true ∧ is_p2sh script_pubkey = true
  · rw [if_pos ⟨contains_of_contains h hp.1, hp.2⟩] at hr
    rw [if_pos hp]
    unfold verify_p2sh at hr ⊢
    split at hr
    · cases hr
    · next hpush =>
      obtain ⟨⟨stack', _⟩, hstack, hr⟩ := eval_bind_eq_ok.mp hr
      obtain ⟨⟨_, _⟩, htop, _⟩ := eval_bind_eq_ok.mp hr
      rw [if_neg hpush]
      refine ⟨(bare'.1 || false, stack'), eval_bind_eq_ok.mpr ⟨(stack', ()), ?_, ?_⟩⟩
      · exact eval_script_follows h _ _ _ _ () _ hstack
      · refine eval_bind_eq_ok.mpr ⟨((), ()), htop, ?_⟩
        rw [verify_program_without hw]
        rfl
  · rw [if_neg hp]
    exact ⟨bare', rfl⟩

theorem verify_script_without (h : contains flags sub = true) (hw : contains sub WITNESS = false)
    (hclean : contains sub CLEANSTACK = false)
    (hr : (verify_script script_sig script_pubkey witness flags).eval answer () = .ok ((), ())) :
    (verify_script script_sig script_pubkey witness sub).eval answer () = .ok ((), ()) := by
  obtain ⟨⟨_, _⟩, hpush, hr⟩ := eval_bind_eq_ok.mp hr
  obtain ⟨⟨stack_copy, _⟩, hsig, hr⟩ := eval_bind_eq_ok.mp hr
  obtain ⟨⟨stack, _⟩, hkey, hr⟩ := eval_bind_eq_ok.mp hr
  obtain ⟨⟨_, _⟩, htop, hr⟩ := eval_bind_eq_ok.mp hr
  obtain ⟨⟨bare, _⟩, _, hr⟩ := eval_bind_eq_ok.mp hr
  obtain ⟨⟨ended, _⟩, hp2sh, _⟩ := eval_bind_eq_ok.mp hr
  obtain ⟨ended', hended⟩ := verify_if_p2sh_without h hw (false, stack) hp2sh
  refine eval_bind_eq_ok.mpr ⟨_, check_push_only_follows h script_sig () _ hpush, ?_⟩
  refine eval_bind_eq_ok.mpr ⟨_, eval_script_follows h _ _ _ _ () _ hsig, ?_⟩
  refine eval_bind_eq_ok.mpr ⟨_, eval_script_follows h _ _ _ _ () _ hkey, ?_⟩
  refine eval_bind_eq_ok.mpr ⟨_, htop, ?_⟩
  refine eval_bind_eq_ok.mpr ⟨((false, stack), ()), by rw [verify_program_without hw]; rfl, ?_⟩
  refine eval_bind_eq_ok.mpr ⟨_, hended, ?_⟩
  simp [check_clean_stack, check_witness_used, hclean, hw, eval_bind]

theorem verify_script_flags_monotone (h : contains flags sub = true) (hsub : Respects sub)
    (hr : verify_script_with answer script_sig script_pubkey witness flags = .ok ()) :
    verify_script_with answer script_sig script_pubkey witness sub = .ok () := by
  have hok (flags : ScriptFlags) : verify_script_with answer script_sig script_pubkey witness flags = .ok () ↔
      (verify_script script_sig script_pubkey witness flags).eval answer () = .ok ((), ()) := by
    unfold verify_script_with
    cases (verify_script script_sig script_pubkey witness flags).eval answer () <;> simp [Except.map]
  rw [hok] at hr ⊢
  cases hw : contains sub WITNESS with
  | true => exact verify_script_follows h (hsub.witness hw) hw () _ hr
  | false =>
    refine verify_script_without h hw ?_ hr
    rw [Bool.eq_false_iff]
    intro hc
    rw [(hsub.clean hc).2] at hw
    cases hw

end

section

abbrev Digests.identity : Digests := ⟨id, id, id⟩

attribute [local instance] Digests.identity

def accepting : (q : Query) → Answer q
  | .check_ecdsa_signature .. => true
  | .check_schnorr_signature _ _ _ execdata => (.ok (), execdata)
  | .check_locktime _ => true
  | .check_sequence _ => true
  | .verify_taproot_commitment .. => true

theorem verify_script_flags_monotone_checksig :
    verify_script_with accepting [0x01, 0x20, 0x01, 0x21] [OP_CHECKSIG] [] P2SH = .ok () :=
  have hsub : contains (P2SH ||| WITNESS ||| CLEANSTACK ||| MINIMALDATA ||| NULLFAIL) P2SH = true := by decide
  verify_script_flags_monotone hsub ⟨by decide, by decide⟩ rfl

end

end AvilaNode.Interpreter
