import AvilaNode.OracleQueries
import AvilaNode.SignatureChecker

/-! The Schnorr checks a script asks for: what their execution data and their cache hold. -/

namespace AvilaNode.Interpreter

open ByteStrings Digests OraclePrograms Exec Transaction

section
variable [Digests]

structure Supplied (checker : TransactionSignatureChecker) (sigversion : SigVersion) (execdata : ExecutionData) : Prop
    where
  annex : execdata.annex_present = true → execdata.annex_hash ≠ none
  leaf : sigversion = .Tapscript → execdata.tapleaf_hash ≠ none
  output : ∀ hash, execdata.output_hash = some hash →
    ∃ output, checker.tx.outputs[checker.n_in]? = some output ∧ hash = sha256 (write_txout output)

structure TaprootReady (tx : Transaction) (spent : List TxOut) (cache : PrecomputedTransactionData) : Prop where
  bip341_taproot_ready : cache.bip341_taproot_ready = true
  spent_outputs_ready : cache.spent_outputs_ready = true
  spent_outputs : cache.spent_outputs = spent
  prevouts : cache.prevouts_single_hash = prevouts_single_hash tx
  sequences : cache.sequences_single_hash = sequences_single_hash tx
  outputs : cache.outputs_single_hash = outputs_single_hash tx
  spent_amounts : cache.spent_amounts_single_hash = spent_amounts_single_hash spent
  spent_scripts : cache.spent_scripts_single_hash = spent_scripts_single_hash spent

def Prepared (spent : List TxOut) (checker : TransactionSignatureChecker) : Query → Prop
  | .check_schnorr_signature _ _ sigversion execdata => (sigversion = .Tapscript ∨ sigversion = .Taproot) ∧
    Supplied checker sigversion execdata ∧ TaprootReady checker.tx spent checker.txdata
  | _ => True

variable [Secp256k1]

abbrev Answers (checker : TransactionSignatureChecker) (query : Query) (answer : Answer query) : Prop :=
  answer = checker.answer query

variable {checker : TransactionSignatureChecker} {spent : List TxOut} {sigversion : SigVersion}
  {execdata : ExecutionData}

omit [Secp256k1] in
theorem Supplied.schnorr_output (h : Supplied checker sigversion execdata) {hash_type : UInt8} {bytes : List UInt8}
    {next : ExecutionData}
    (ho : schnorr_output checker.tx checker.n_in hash_type execdata = some (bytes, next)) :
    Supplied checker sigversion next := by
  unfold Interpreter.schnorr_output at ho
  generalize (if hash_type = SIGHASH_DEFAULT then SIGHASH_ALL else hash_type &&& SIGHASH_OUTPUT_MASK) =
    output_type at ho
  dsimp only at ho
  split at ho
  · obtain ⟨output, hout, he⟩ := Option.map_eq_some_iff.mp ho
    obtain ⟨-, rfl⟩ := Prod.mk.inj he
    refine ⟨h.annex, h.leaf, fun hash hhash => ⟨output, hout, ?_⟩⟩
    obtain rfl := Option.some.inj hhash
    cases hkept : execdata.output_hash with
    | none => rfl
    | some hash =>
      obtain ⟨output', hout', rfl⟩ := h.output hash hkept
      rw [Option.some.inj (hout.symm.trans hout')]
      rfl
  · obtain ⟨-, rfl⟩ := Prod.mk.inj (Option.some.inj ho)
    exact h

theorem Supplied.schnorr (h : Supplied checker sigversion execdata) (sig pubkey : List UInt8)
    (asked : SigVersion) :
    Supplied checker sigversion (checker.check_schnorr_signature sig pubkey asked execdata).2 := by
  have hkept : ∀ hash_type, Supplied checker sigversion
      (signature_hash_schnorr checker.tx checker.n_in hash_type asked checker.txdata execdata).2 := by
    intro hash_type
    unfold signature_hash_schnorr
    dsimp only
    split
    · exact h
    split
    · exact h
    split
    · exact h
    split
    · exact h
    rename_i ho
    have hs := h.schnorr_output ho
    split
    · exact hs
    · exact hs
  unfold TransactionSignatureChecker.check_schnorr_signature
  dsimp only
  split
  · exact h
  split
  · exact h
  generalize (if sig.length = 65 then sig.getLastD 0 else SIGHASH_DEFAULT) = hash_type
  have hk := hkept hash_type
  split
  · rename_i he
    rwa [he] at hk
  · rename_i he
    rwa [he] at hk

abbrev Asking (spent : List TxOut) (checker : TransactionSignatureChecker) (sigversion : SigVersion) {α : Type}
    (f : Run α) : Prop :=
  Heeds (Answers checker) (Prepared spent checker) (fun m => Supplied checker sigversion m.execdata) f

variable {α : Type} (x : Except ScriptError α) (e : ScriptError)

namespace Asking

theorem fail : Asking spent checker sigversion (fail e : Run α) := Heeds.throw _

theorem panics : Asking spent checker sigversion (panics : Run α) := Heeds.throw _

theorem done : Asking spent checker sigversion (Pure.pure () : Run Unit) := Heeds.pure _

theorem attempt : Asking spent checker sigversion (attempt x : Run α) :=
  Heeds.lift _

theorem checked (value : ℤ) : Asking spent checker sigversion (checked value) :=
  Heeds.ite (fun _ => Heeds.pure _) fun _ => panics

variable (opcode : UInt8) (n : ℕ)

theorem top : Asking spent checker sigversion (top n) := by
  refine Heeds.get fun m _ => ?_
  split
  · exact panics
  · exact panics
  · exact Heeds.pure _

theorem push (v : Element) : Asking spent checker sigversion (push v) := Heeds.modify fun _ h => h

theorem pop : Asking spent checker sigversion pop := Heeds.modify fun _ h => h

theorem remove : Asking spent checker sigversion (remove n) :=
  (top n).bind fun _ => Heeds.bind (Heeds.modify fun _ h => h) fun _ => Heeds.pure _

theorem swap (i j : ℕ) : Asking spent checker sigversion (swap i j) :=
  (top i).bind fun _ => (top j).bind fun _ => Heeds.modify fun _ h => h

theorem insert (v : Element) : Asking spent checker sigversion (insert n v) :=
  Heeds.get fun _ _ => Heeds.ite (fun _ => panics) fun _ => Heeds.modify fun _ h => h

theorem require (e : ScriptError) : Asking spent checker sigversion (require n e) :=
  Heeds.get fun _ _ => Heeds.ite (fun _ => fail e) fun _ => done

theorem set_cond (cond : Option ConditionStack) : Asking spent checker sigversion (set_cond cond) := by
  cases cond with
  | none => exact panics
  | some cond => exact Heeds.modify fun _ h => h

theorem push_verdict (value verify : Bool) (e : ScriptError) :
    Asking spent checker sigversion (push_verdict value verify e) :=
  (push _).bind fun _ => Heeds.ite (fun _ => Heeds.ite (fun _ => pop) fun _ => fail e) fun _ => done

theorem number (env : Env) (n max_size : ℕ) : Asking spent checker sigversion (number env n max_size) :=
  (top n).bind fun _ => attempt _

variable {env : Env}

theorem op_checklocktimeverify : Asking spent checker sigversion (op_checklocktimeverify env) := by
  refine Heeds.ite (fun _ => done) fun _ => (require 1 _).bind fun _ => (number env 1 5).bind fun _ => ?_
  refine Heeds.ite (fun _ => fail _) fun _ => (Heeds.ask trivial).bind fun _ => ?_
  exact Heeds.ite (fun _ => fail _) fun _ => done

theorem op_checksequenceverify : Asking spent checker sigversion (op_checksequenceverify env) := by
  refine Heeds.ite (fun _ => done) fun _ => (require 1 _).bind fun _ => (number env 1 5).bind fun _ => ?_
  refine Heeds.ite (fun _ => fail _) fun _ => Heeds.ite (fun _ => done) fun _ => (Heeds.ask trivial).bind fun _ => ?_
  exact Heeds.ite (fun _ => fail _) fun _ => done

theorem op_nop : Asking spent checker sigversion (op_nop env) := Heeds.ite (fun _ => fail _) fun _ => done

theorem check_minimal_if (vch : Element) : Asking spent checker sigversion (check_minimal_if env vch) :=
  Heeds.ite (fun _ => fail _) fun _ => Heeds.ite (fun _ => fail _) fun _ => done

theorem push_cond (value : Bool) : Asking spent checker sigversion (push_cond value) :=
  Heeds.get fun _ _ => set_cond _

theorem op_if (f_exec : Bool) : Asking spent checker sigversion (op_if env opcode f_exec) := by
  refine Heeds.ite (fun _ => ?_) fun _ => push_cond false
  refine (require 1 _).bind fun _ => (top 1).bind fun vch => (check_minimal_if vch).bind fun _ => ?_
  exact pop.bind fun _ => push_cond _

theorem op_else : Asking spent checker sigversion op_else :=
  Heeds.get fun _ _ => Heeds.ite (fun _ => fail _) fun _ => set_cond _

theorem op_endif : Asking spent checker sigversion op_endif :=
  Heeds.get fun _ _ => Heeds.ite (fun _ => fail _) fun _ => set_cond _

theorem op_verify : Asking spent checker sigversion op_verify :=
  (require 1 _).bind fun _ => (top 1).bind fun _ => Heeds.ite (fun _ => pop) fun _ => fail _

theorem op_toaltstack : Asking spent checker sigversion op_toaltstack :=
  (require 1 _).bind fun _ => Heeds.modify fun _ h => h

theorem op_fromaltstack : Asking spent checker sigversion op_fromaltstack :=
  Heeds.get fun _ _ => Heeds.ite (fun _ => fail _) fun _ => Heeds.modify fun _ h => h

theorem op_2drop : Asking spent checker sigversion op_2drop :=
  (require 2 _).bind fun _ => pop.bind fun _ => pop

theorem op_2dup : Asking spent checker sigversion op_2dup :=
  (require 2 _).bind fun _ => (top 2).bind fun v1 => (top 1).bind fun v2 => (push v1).bind fun _ => push v2

theorem op_3dup : Asking spent checker sigversion op_3dup := by
  refine (require 3 _).bind fun _ => (top 3).bind fun v1 => (top 2).bind fun v2 => (top 1).bind fun v3 => ?_
  exact (push v1).bind fun _ => (push v2).bind fun _ => push v3

theorem op_2over : Asking spent checker sigversion op_2over :=
  (require 4 _).bind fun _ => (top 4).bind fun v1 => (top 3).bind fun v2 => (push v1).bind fun _ => push v2

theorem op_2rot : Asking spent checker sigversion op_2rot :=
  (require 6 _).bind fun _ => (remove 6).bind fun v1 => (remove 5).bind fun v2 => (push v1).bind fun _ => push v2

theorem op_2swap : Asking spent checker sigversion op_2swap :=
  (require 4 _).bind fun _ => (swap 4 2).bind fun _ => swap 3 1

theorem op_ifdup : Asking spent checker sigversion op_ifdup :=
  (require 1 _).bind fun _ => (top 1).bind fun v => Heeds.ite (fun _ => push v) fun _ => done

theorem op_depth : Asking spent checker sigversion op_depth := Heeds.get fun _ _ => push _

theorem op_drop : Asking spent checker sigversion op_drop := (require 1 _).bind fun _ => pop

theorem op_dup : Asking spent checker sigversion op_dup :=
  (require 1 _).bind fun _ => (top 1).bind fun v => push v

theorem op_nip : Asking spent checker sigversion op_nip :=
  (require 2 _).bind fun _ => (remove 2).bind fun _ => done

theorem op_over : Asking spent checker sigversion op_over :=
  (require 2 _).bind fun _ => (top 2).bind fun v => push v

theorem op_pick : Asking spent checker sigversion (op_pick env opcode) := by
  refine (require 2 _).bind fun _ => (number env 1 _).bind fun n => pop.bind fun _ => Heeds.get fun _ _ => ?_
  refine Heeds.ite (fun _ => fail _) fun _ => ?_
  exact Heeds.ite (fun _ => (remove _).bind fun v => push v) fun _ => (top _).bind fun v => push v

theorem op_rot : Asking spent checker sigversion op_rot :=
  (require 3 _).bind fun _ => (swap 3 2).bind fun _ => swap 2 1

theorem op_swap : Asking spent checker sigversion op_swap := (require 2 _).bind fun _ => swap 2 1

theorem op_tuck : Asking spent checker sigversion op_tuck :=
  (require 2 _).bind fun _ => (top 1).bind fun v => insert 2 v

theorem op_size : Asking spent checker sigversion op_size :=
  (require 1 _).bind fun _ => (top 1).bind fun _ => push _

theorem op_equal : Asking spent checker sigversion (op_equal opcode) := by
  refine (require 2 _).bind fun _ => (top 2).bind fun v1 => (top 1).bind fun v2 => ?_
  exact pop.bind fun _ => pop.bind fun _ => push_verdict _ _ _

theorem op_unary : Asking spent checker sigversion (op_unary env opcode) :=
  (require 1 _).bind fun _ => (number env 1 _).bind fun _ => pop.bind fun _ => push _

theorem op_binary : Asking spent checker sigversion (op_binary env opcode) := by
  refine (require 2 _).bind fun _ => (number env 2 _).bind fun _ => (number env 1 _).bind fun _ => ?_
  refine pop.bind fun _ => pop.bind fun _ => (push _).bind fun _ => Heeds.ite (fun _ => ?_) fun _ => done
  exact (top 1).bind fun _ => Heeds.ite (fun _ => pop) fun _ => fail _

theorem op_within : Asking spent checker sigversion (op_within env) := by
  refine (require 3 _).bind fun _ => (number env 3 _).bind fun _ => (number env 2 _).bind fun _ => ?_
  exact (number env 1 _).bind fun _ => pop.bind fun _ => pop.bind fun _ => pop.bind fun _ => push _

theorem op_hash : Asking spent checker sigversion (op_hash opcode) :=
  (require 1 _).bind fun _ => (top 1).bind fun _ => pop.bind fun _ => push _

theorem op_codeseparator : Asking spent checker sigversion op_codeseparator :=
  Heeds.modify fun _ h => ⟨h.annex, h.leaf, h.output⟩

theorem eval_plain : Asking spent checker sigversion (eval_plain opcode) := by
  unfold Interpreter.eval_plain
  refine Heeds.ite (fun _ => push _) fun _ => Heeds.ite (fun _ => done) fun _ =>
    Heeds.ite (fun _ => op_else) fun _ => ?_
  refine Heeds.ite (fun _ => op_endif) fun _ => Heeds.ite (fun _ => op_verify) fun _ =>
    Heeds.ite (fun _ => fail _) fun _ => ?_
  refine Heeds.ite (fun _ => op_toaltstack) fun _ => Heeds.ite (fun _ => op_fromaltstack) fun _ => ?_
  refine Heeds.ite (fun _ => op_2drop) fun _ => Heeds.ite (fun _ => op_2dup) fun _ =>
    Heeds.ite (fun _ => op_3dup) fun _ => ?_
  refine Heeds.ite (fun _ => op_2over) fun _ => Heeds.ite (fun _ => op_2rot) fun _ =>
    Heeds.ite (fun _ => op_2swap) fun _ => ?_
  refine Heeds.ite (fun _ => op_ifdup) fun _ => Heeds.ite (fun _ => op_depth) fun _ =>
    Heeds.ite (fun _ => op_drop) fun _ => ?_
  refine Heeds.ite (fun _ => op_dup) fun _ => Heeds.ite (fun _ => op_nip) fun _ =>
    Heeds.ite (fun _ => op_over) fun _ => ?_
  refine Heeds.ite (fun _ => op_rot) fun _ => Heeds.ite (fun _ => op_swap) fun _ =>
    Heeds.ite (fun _ => op_tuck) fun _ => ?_
  refine Heeds.ite (fun _ => op_size) fun _ => Heeds.ite (fun _ => op_equal _) fun _ =>
    Heeds.ite (fun _ => op_hash _) fun _ => ?_
  exact Heeds.ite (fun _ => op_codeseparator) fun _ => fail _

theorem script_code : Asking spent checker sigversion (script_code env) :=
  Heeds.get fun _ _ => Heeds.ite (fun _ => panics) fun _ => Heeds.pure _

theorem drop_signature (code sig : List UInt8) : Asking spent checker sigversion (drop_signature env code sig) :=
  Heeds.ite (fun _ => fail _) fun _ => Heeds.pure _

theorem signed_code (sig : Element) : Asking spent checker sigversion (signed_code env sig) :=
  script_code.bind fun _ => Heeds.ite (fun _ => drop_signature _ _) fun _ => Heeds.pure _

theorem check_null_fail (success : Bool) (sig : Element) :
    Asking spent checker sigversion (check_null_fail env success sig) :=
  Heeds.ite (fun _ => fail _) fun _ => done

theorem check_encodings (sig pubkey : Element) : Asking spent checker sigversion (check_encodings env sig pubkey) :=
  (attempt _).bind fun _ => attempt _

theorem eval_checksig_pre_tapscript (sig pubkey : Element) :
    Asking spent checker sigversion (eval_checksig_pre_tapscript env sig pubkey) := by
  refine (signed_code sig).bind fun _ => (check_encodings sig pubkey).bind fun _ =>
    (Heeds.ask trivial).bind fun _ => ?_
  exact (check_null_fail _ sig).bind fun _ => Heeds.pure _

theorem spend_validation_weight : Asking spent checker sigversion spend_validation_weight := by
  refine Heeds.get fun _ _ => (checked _).bind fun _ => Heeds.bind ?_ fun _ => Heeds.ite (fun _ => fail _) fun _ =>
    done
  exact Heeds.modify fun _ h => ⟨h.annex, h.leaf, h.output⟩

section

variable (hready : TaprootReady checker.tx spent checker.txdata)
include hready

theorem check_schnorr (sig pubkey : Element) :
    Asking spent checker .Tapscript (check_schnorr sig pubkey .Tapscript) where
  asks m hm := ⟨⟨.inl rfl, hm, hready⟩, fun answer _ => by
    have hrest : Heeds (Answers checker) (Prepared spent checker) (fun _ => True)
        (Exec.modify (fun m : Machine => { m with execdata := answer.2 }) >>= fun _ =>
          Interpreter.attempt answer.1) :=
      Heeds.bind (Heeds.modify fun _ _ => trivial) fun _ => Heeds.lift _
    exact hrest.asks m trivial⟩
  keeps := by
    refine Triple.bind Triple.get fun m => Triple.assume ?_
    rintro m ⟨rfl, hm⟩
    refine Triple.bind (Triple.ask _) fun answer => Triple.of_fact ?_
    rintro rfl
    refine Triple.bind (C := fun _ m => Supplied checker .Tapscript m.execdata) (Triple.modify ?_) fun _ => ?_
    · rintro _ -
      exact hm.schnorr sig pubkey .Tapscript
    · exact (attempt _ : Asking spent checker .Tapscript _).keeps

theorem check_tapscript_key (sig pubkey : Element) :
    Asking spent checker .Tapscript (check_tapscript_key env sig pubkey) := by
  refine Heeds.ite (fun _ => fail _) fun _ => Heeds.ite (fun _ => ?_) fun _ => Heeds.ite (fun _ => fail _) fun _ =>
    done
  exact Heeds.ite (fun _ => check_schnorr hready sig pubkey) fun _ => done

theorem eval_checksig_tapscript (sig pubkey : Element) :
    Asking spent checker .Tapscript (eval_checksig_tapscript env sig pubkey) := by
  refine Heeds.ite (fun _ => ?_) fun _ => (check_tapscript_key hready sig pubkey).bind fun _ => Heeds.pure _
  exact spend_validation_weight.bind fun _ => (check_tapscript_key hready sig pubkey).bind fun _ => Heeds.pure _

end

abbrev ReadyFor (spent : List TxOut) (checker : TransactionSignatureChecker) (env : Env) : Prop :=
  env.sigversion = .Tapscript → TaprootReady checker.tx spent checker.txdata

section

variable (hready : ReadyFor spent checker env)
include hready

theorem eval_checksig (sig pubkey : Element) :
    Asking spent checker env.sigversion (eval_checksig env sig pubkey) := by
  unfold Interpreter.eval_checksig
  cases hversion : env.sigversion with
  | Base => exact eval_checksig_pre_tapscript sig pubkey
  | WitnessV0 => exact eval_checksig_pre_tapscript sig pubkey
  | Tapscript => exact eval_checksig_tapscript (hready hversion) sig pubkey
  | Taproot => exact panics

theorem op_checksig (opcode : UInt8) :
    Asking spent checker env.sigversion (op_checksig env opcode) := by
  refine (require 2 _).bind fun _ => (top 2).bind fun sig => (top 1).bind fun pubkey => ?_
  exact (eval_checksig hready sig pubkey).bind fun _ => pop.bind fun _ => pop.bind fun _ => push_verdict _ _ _

theorem op_checksigadd :
    Asking spent checker env.sigversion (op_checksigadd env) := by
  refine Heeds.ite (fun _ => fail _) fun _ => (require 3 _).bind fun _ => (top 3).bind fun sig => ?_
  refine (number env 2 _).bind fun _ => (top 1).bind fun pubkey => (eval_checksig hready sig pubkey).bind fun _ => ?_
  exact pop.bind fun _ => pop.bind fun _ => pop.bind fun _ => (checked _).bind fun _ => push _

end

theorem count_ops (n : ℤ) : Asking spent checker sigversion (count_ops n) := by
  refine Heeds.get fun _ _ => (checked _).bind fun _ => Heeds.bind (Heeds.modify fun _ h => h) fun _ => ?_
  exact Heeds.ite (fun _ => fail _) fun _ => done

theorem drop_signatures (isig count : ℕ) (code : List UInt8) :
    Asking spent checker sigversion (drop_signatures env isig count code) := by
  induction count generalizing isig code with
  | zero => exact Heeds.pure _
  | succ count ih => exact (top isig).bind fun sig => (drop_signature code sig).bind fun _ => ih _ _

theorem multisig_code (isig sigs_count : ℕ) : Asking spent checker sigversion (multisig_code env isig sigs_count) :=
  script_code.bind fun _ => Heeds.ite (fun _ => drop_signatures _ _ _) fun _ => Heeds.pure _

theorem match_signatures (code : List UInt8) (isig sigs_count ikey keys_count : ℕ) :
    Asking spent checker sigversion (match_signatures env code isig sigs_count ikey keys_count) := by
  induction keys_count generalizing isig sigs_count ikey with
  | zero => cases sigs_count <;> exact Heeds.pure _
  | succ keys_count ih =>
    cases sigs_count with
    | zero => exact Heeds.pure _
    | succ sigs_count =>
      refine (top isig).bind fun sig => (top ikey).bind fun pubkey => (check_encodings sig pubkey).bind fun _ => ?_
      exact (Heeds.ask trivial).bind fun _ => Heeds.ite (fun _ => Heeds.pure _) fun _ => ih _ _ _

theorem pop_arguments (success : Bool) (i ikey2 : ℕ) :
    Asking spent checker sigversion (pop_arguments env success i ikey2) := by
  induction i generalizing ikey2 with
  | zero => exact done
  | succ i ih =>
    refine Heeds.bind (Heeds.ite (fun _ => ?_) fun _ => done) fun _ => pop.bind fun _ => ih _
    exact (top 1).bind fun _ => Heeds.ite (fun _ => fail _) fun _ => done

theorem check_null_dummy : Asking spent checker sigversion (check_null_dummy env) :=
  Heeds.ite (fun _ => (top 1).bind fun _ => Heeds.ite (fun _ => fail _) fun _ => done) fun _ => done

theorem op_checkmultisig : Asking spent checker sigversion (op_checkmultisig env opcode) := by
  refine Heeds.ite (fun _ => fail _) fun _ => (require 1 _).bind fun _ => (number env 1 _).bind fun _ => ?_
  refine Heeds.ite (fun _ => fail _) fun _ => (count_ops _).bind fun _ => (require _ _).bind fun _ => ?_
  refine (number env _ _).bind fun _ => Heeds.ite (fun _ => fail _) fun _ => (require _ _).bind fun _ => ?_
  refine (multisig_code _ _).bind fun code => (match_signatures code _ _ _ _).bind fun _ => ?_
  refine (pop_arguments _ _ _).bind fun _ => (require 1 _).bind fun _ => check_null_dummy.bind fun _ => ?_
  exact pop.bind fun _ => push_verdict _ _ _

section

variable (hready : ReadyFor spent checker env)
include hready

theorem eval_op (opcode : UInt8) (f_exec : Bool) :
    Asking spent checker env.sigversion (eval_op env opcode f_exec) := by
  refine Heeds.ite (fun _ => op_checklocktimeverify) fun _ => Heeds.ite (fun _ => op_checksequenceverify) fun _ => ?_
  refine Heeds.ite (fun _ => op_nop) fun _ => Heeds.ite (fun _ => op_if opcode f_exec) fun _ => ?_
  refine Heeds.ite (fun _ => op_pick opcode) fun _ => Heeds.ite (fun _ => op_unary opcode) fun _ => ?_
  refine Heeds.ite (fun _ => op_binary opcode) fun _ => Heeds.ite (fun _ => op_within) fun _ => ?_
  refine Heeds.ite (fun _ => op_checksig hready opcode) fun _ => Heeds.ite (fun _ => op_checksigadd hready) fun _ =>
    ?_
  exact Heeds.ite (fun _ => op_checkmultisig opcode) fun _ => eval_plain opcode

theorem execute (opcode : UInt8) (data : Element) (f_exec : Bool) :
    Asking spent checker env.sigversion (execute env opcode data f_exec) := by
  refine Heeds.ite (fun _ => ?_) fun _ => Heeds.ite (fun _ => eval_op hready opcode f_exec) fun _ => done
  exact Heeds.bind (Heeds.ite (fun _ => fail _) fun _ => done) fun _ => push data

theorem eval_step : Asking spent checker env.sigversion (eval_step env) := by
  refine Heeds.get fun m _ => ?_
  split
  · exact fail _
  refine Heeds.ite (fun _ => fail _) fun _ => Heeds.bind (Heeds.modify fun _ h => h) fun _ => ?_
  refine Heeds.bind (Heeds.ite (fun _ => count_ops 1) fun _ => done) fun _ => ?_
  refine Heeds.bind (Heeds.ite (fun _ => fail _) fun _ => Heeds.ite (fun _ => fail _) fun _ => done) fun _ => ?_
  refine (execute hready _ _ _).bind fun _ => Heeds.bind ?_ fun _ => ?_
  · exact Heeds.get fun _ _ => Heeds.ite (fun _ => fail _) fun _ => done
  · exact Heeds.get fun _ _ => Heeds.ite (fun _ => panics) fun _ => Heeds.modify fun _ h => h

theorem eval_loop (fuel : ℕ) :
    Asking spent checker env.sigversion (eval_loop env fuel) := by
  induction fuel with
  | zero => exact done
  | succ fuel ih => exact Heeds.get fun _ _ => Heeds.ite (fun _ => (eval_step hready).bind fun _ => ih) fun _ => done

theorem eval_machine :
    Asking spent checker env.sigversion (eval_machine env) := by
  refine Heeds.ite (fun _ => fail _) fun _ => (eval_loop hready _).bind fun _ => ?_
  exact Heeds.get fun _ _ => Heeds.ite (fun _ => fail _) fun _ => done

end

end Asking

abbrev Verifying (spent : List TxOut) (checker : TransactionSignatureChecker) {α : Type} (f : Verify α) : Prop :=
  Heeds (Answers checker) (Prepared spent checker) (fun _ => True) f

omit [Secp256k1] in
theorem Supplied.default (hversion : sigversion ≠ .Tapscript) : Supplied checker sigversion ExecutionData.default :=
  ⟨nofun, fun h => absurd h hversion, nofun⟩

omit [Secp256k1] in
theorem Supplied.annex_data (annex : Option Element) : Supplied checker .Taproot (annex_data annex) := by
  cases annex with
  | none => exact ⟨nofun, nofun, nofun⟩
  | some annex => exact ⟨fun _ => Option.some_ne_none _, nofun, nofun⟩

omit [Secp256k1] in
theorem Supplied.start (h : Supplied checker sigversion execdata) (stack : List Element) :
    Supplied checker sigversion (Machine.start stack execdata).execdata :=
  ⟨h.annex, h.leaf, h.output⟩

namespace Verifying

theorem fail : Verifying spent checker (fail e : Verify α) := Heeds.throw _

theorem done : Verifying spent checker (Pure.pure () : Verify Unit) := Heeds.pure _

theorem attempt : Verifying spent checker (attempt x : Verify α) := Heeds.lift _

variable {env : Env}

theorem eval_script (hready : Asking.ReadyFor spent checker env) (stack : List Element)
    (h : Supplied checker env.sigversion execdata) : Verifying spent checker (eval_script stack env execdata) :=
  Heeds.bind (Heeds.within (Asking.eval_machine hready) (h.start stack)) fun _ => Heeds.pure _

theorem execute_witness_stack (hready : Asking.ReadyFor spent checker env) (stack : List Element)
    (h : Supplied checker env.sigversion execdata) :
    Verifying spent checker (execute_witness_stack stack env execdata) := by
  refine Heeds.ite (fun _ => fail _) fun _ => Heeds.ite (fun _ => fail _) fun _ => ?_
  refine (eval_script hready stack h).bind fun stack => ?_
  split
  · exact fail _
  · exact Heeds.ite (fun _ => fail _) fun _ => Heeds.ite (fun _ => fail _) fun _ => done

theorem execute_witness_script (hready : sigversion = .Tapscript → TaprootReady checker.tx spent checker.txdata)
    (stack : List Element) (script : Script) (flags : ScriptFlags) (h : Supplied checker sigversion execdata) :
    Verifying spent checker (execute_witness_script stack script flags sigversion execdata) := by
  unfold Interpreter.execute_witness_script
  split
  · exact fail _
  · exact Heeds.ite (fun _ => fail _) fun _ => done
  · exact execute_witness_stack hready stack h

theorem execute_before_tapscript (hversion : sigversion ≠ .Tapscript) (stack : List Element) (script : Script)
    (flags : ScriptFlags) :
    Verifying spent checker (Interpreter.execute_witness_script stack script flags sigversion .default) :=
  execute_witness_script (fun h => absurd h hversion) stack script flags (Supplied.default hversion)

theorem verify_script_path (hready : TaprootReady checker.tx spent checker.txdata) (witness stack : List Element)
    (control : Element) (script : Script) (program : List UInt8) (flags : ScriptFlags)
    (h : Supplied checker .Taproot execdata) :
    Verifying spent checker (verify_script_path witness stack control script program flags execdata) := by
  refine Heeds.ite (fun _ => fail _) fun _ => (Heeds.ask trivial).bind fun _ => Heeds.ite (fun _ => fail _) fun _ =>
    ?_
  refine Heeds.ite (fun _ => ?_) fun _ => Heeds.ite (fun _ => fail _) fun _ => done
  exact execute_witness_script (fun _ => hready) _ _ _ ⟨h.annex, fun _ => Option.some_ne_none _, h.output⟩

variable {witness : List Element}

theorem verify_taproot (hready : witness ≠ [] → TaprootReady checker.tx spent checker.txdata) (program : List UInt8)
    (flags : ScriptFlags) : Verifying spent checker (verify_taproot witness program flags) := by
  refine Heeds.ite (fun _ => done) fun _ => ?_
  cases hsplit : split_annex witness with
  | mk annex stack =>
    cases stack with
    | nil => exact fail _
    | cons item rest =>
      have hne : witness ≠ [] := by
        rintro rfl
        cases hsplit
      have hs : Supplied checker .Taproot (annex_data annex) := .annex_data annex
      cases rest with
      | nil => exact Heeds.bind (Heeds.ask ⟨.inr rfl, hs, hready hne⟩) fun answer => attempt _
      | cons script stack => exact verify_script_path (hready hne) witness stack item script program flags hs

theorem verify_witness_program {witversion : UInt8} {program : List UInt8} {is_p2sh : Bool}
    (hready : witversion = 1 → program.length = WITNESS_V1_TAPROOT_SIZE → is_p2sh = false → witness ≠ [] →
      TaprootReady checker.tx spent checker.txdata)
    (flags : ScriptFlags) :
    Verifying spent checker (verify_witness_program witness witversion program flags is_p2sh) := by
  refine Heeds.ite (fun _ => Heeds.ite (fun _ => ?_) fun _ => Heeds.ite (fun _ => ?_) fun _ => fail _) fun _ => ?_
  · cases witness with
    | nil => exact fail _
    | cons script rest =>
      exact Heeds.ite (fun _ => fail _) fun _ => execute_before_tapscript (by decide) _ _ _
  · exact Heeds.ite (fun _ => fail _) fun _ => execute_before_tapscript (by decide) _ _ _
  · refine Heeds.ite (fun htap => ?_) fun _ => Heeds.ite (fun _ => done) fun _ => ?_
    · exact verify_taproot (hready htap.1 htap.2.1 (by simpa using htap.2.2)) program flags
    · exact Heeds.ite (fun _ => fail _) fun _ => done

variable (stack : List Element)

theorem eval_base (script : Script) (flags : ScriptFlags) :
    Verifying spent checker (eval_base stack script flags) := by
  have hready : Asking.ReadyFor spent checker ⟨script, flags, .Base⟩ := fun h => nomatch h
  exact eval_script hready stack (Supplied.default (fun h => nomatch h))

theorem check_top : Verifying spent checker (check_top stack) := by
  cases stack with
  | nil => exact fail _
  | cons elem rest => exact Heeds.ite (fun _ => done) fun _ => fail _

theorem verify_program {script : Script} {is_p2sh : Bool}
    (hready : ∀ program, witness_program script = some (1, program) → program.length = WITNESS_V1_TAPROOT_SIZE →
      is_p2sh = false → witness ≠ [] → TaprootReady checker.tx spent checker.txdata)
    (stack : List Element) (script_sig expected : Script) (e : ScriptError) (flags : ScriptFlags) :
    Verifying spent checker (verify_program witness stack script script_sig expected e flags is_p2sh) := by
  unfold Interpreter.verify_program
  split
  · exact Heeds.pure _
  rename_i witversion program hprogram
  refine Heeds.ite (fun _ => fail _) fun _ => Heeds.bind (verify_witness_program ?_ flags) fun _ => Heeds.pure _
  intro hversion
  split at hprogram
  · rw [hversion] at hprogram
    exact hready program hprogram
  · cases hprogram

theorem verify_p2sh (witness stack : List Element) (script_sig : Script) (flags : ScriptFlags) (had_witness : Bool) :
    Verifying spent checker (verify_p2sh witness stack script_sig flags had_witness) := by
  have hnone : ∀ program, witness_program (stack.headD []) = some (1, program) →
      program.length = WITNESS_V1_TAPROOT_SIZE → true = false → witness ≠ [] →
        TaprootReady checker.tx spent checker.txdata := fun _ _ _ h => nomatch h
  refine Heeds.ite (fun _ => fail _) fun _ => (eval_base _ _ flags).bind fun stack =>
    (check_top stack).bind fun _ => ?_
  exact Heeds.bind (verify_program hnone _ _ _ _ flags) fun _ => Heeds.pure _

theorem verify_script {script_pubkey : Script}
    (hready : ∀ program, witness_program script_pubkey = some (1, program) →
      program.length = WITNESS_V1_TAPROOT_SIZE → witness ≠ [] → TaprootReady checker.tx spent checker.txdata)
    (script_sig : Script) (flags : ScriptFlags) :
    Verifying spent checker (verify_script script_sig script_pubkey witness flags) := by
  refine Heeds.bind (Heeds.ite (fun _ => fail _) fun _ => done) fun _ =>
    (eval_base _ _ flags).bind fun stack_copy => ?_
  refine (eval_base _ _ flags).bind fun stack => (check_top stack).bind fun _ => ?_
  refine Heeds.bind (verify_program (fun program hp hlen _ => hready program hp hlen) _ _ _ _ flags) fun bare => ?_
  refine Heeds.bind (Heeds.ite (fun _ => verify_p2sh _ _ _ flags _) fun _ => Heeds.pure _) fun ended => ?_
  exact Heeds.bind (Heeds.ite (fun _ => fail _) fun _ => done) fun _ => Heeds.ite (fun _ => fail _) fun _ => done

end Verifying

end

end AvilaNode.Interpreter
