import AvilaNode.MachineBounds

/-! Every opcode keeps the bounds of the machine. -/

namespace AvilaNode.Interpreter

open OraclePrograms Exec

theorem small_nil : Small [] := Nat.zero_le _

theorem small_bool (b : Bool) : Small (bool_element b) := by
  unfold Small
  cases b <;> decide

theorem small_encode (n : ℤ) : Small (encode_script_num n) :=
  (length_encode_script_num_le n).trans (by decide)

variable {safe : Prop} {env : Env} {pc pos conds depth : ℕ}

abbrev Op (safe : Prop) (env : Env) (pc pos conds : ℕ) (f : Run Unit) : Prop :=
  Keeps safe env pc pos conds 0 0 f fun _ => True

theorem Keeps.op {d : ℕ} {f : Run Unit} {fact : Unit → Prop} (h : Keeps safe env pc pos conds 0 d f fact) :
    Op safe env pc pos conds f :=
  h.mono (Nat.zero_le d) fun _ _ => trivial

theorem push_verdict_keeps (value verify : Bool) (e : ScriptError) :
    Keeps safe env pc pos conds depth depth (push_verdict value verify e) fun _ => True := by
  refine (Keeps.push fun _ => small_bool value).bind fun _ _ => Keeps.ite (fun _ => ?_) fun _ => ?_
  · exact Keeps.ite (fun _ => Keeps.pop) fun _ => Keeps.fail e
  · exact Keeps.pure () trivial (Nat.le_succ depth)

theorem op_checklocktimeverify_keeps : Op safe env pc pos conds (op_checklocktimeverify env) := by
  refine Keeps.ite (fun _ => Keeps.done) fun _ => ?_
  refine (Keeps.require 1 _).bind fun _ _ => (Keeps.number 0 5 (by decide) (by decide)).bind fun n _ => ?_
  refine Keeps.ite (fun _ => Keeps.fail _) fun _ => (Keeps.ask _).bind fun answer _ => ?_
  exact Keeps.ite (fun _ => Keeps.fail _) fun _ => Keeps.pure () trivial (Nat.zero_le _)

theorem op_checksequenceverify_keeps : Op safe env pc pos conds (op_checksequenceverify env) := by
  refine Keeps.ite (fun _ => Keeps.done) fun _ => ?_
  refine (Keeps.require 1 _).bind fun _ _ => (Keeps.number 0 5 (by decide) (by decide)).bind fun n _ => ?_
  refine Keeps.ite (fun _ => Keeps.fail _) fun _ =>
    Keeps.ite (fun _ => Keeps.pure () trivial (Nat.zero_le _)) fun _ => ?_
  refine (Keeps.ask _).bind fun answer _ => ?_
  exact Keeps.ite (fun _ => Keeps.fail _) fun _ => Keeps.pure () trivial (Nat.zero_le _)

theorem op_nop_keeps : Op safe env pc pos conds (op_nop env) :=
  Keeps.ite (fun _ => Keeps.fail _) fun _ => Keeps.done

theorem op_verify_keeps : Op safe env pc pos conds op_verify := by
  refine (Keeps.require 1 _).bind fun _ _ => (Keeps.top 0 (by decide)).bind fun v _ => ?_
  exact Keeps.ite (fun _ => Keeps.pop) fun _ => Keeps.fail _

theorem op_toaltstack_keeps : Op safe env pc pos conds op_toaltstack := by
  refine (Keeps.require 1 _).bind fun _ _ => Keeps.modify fun m hm => ⟨hm.at_pc, hm.at_pos, fun hs => ?_⟩
  have h := hm.bounded hs
  refine { h with deep := Nat.zero_le _, small := fun v hv => h.small v (List.mem_of_mem_tail hv),
                  small_alt := fun v hv => ?_ }
  rcases List.mem_cons.mp hv with rfl | hv
  · cases hstack : m.stack with
    | nil => exact small_nil
    | cons w rest => exact h.small w (by rw [hstack]; exact List.mem_cons_self)
  · exact h.small_alt v hv

theorem op_fromaltstack_keeps : Op safe env pc pos conds op_fromaltstack := by
  refine Keeps.get fun m hm => Triple.ite (fun _ => Triple.throw fun _ _ _ => nofun) fun _ => Triple.modify ?_
  rintro m rfl
  refine ⟨trivial, hm.at_pc, hm.at_pos, fun hs => ?_⟩
  have h := hm.bounded hs
  refine { h with deep := Nat.zero_le _, small_alt := fun v hv => h.small_alt v (List.mem_of_mem_tail hv),
                  small := fun v hv => ?_ }
  rcases List.mem_cons.mp hv with rfl | hv
  · cases halt : m.altstack with
    | nil => exact small_nil
    | cons w rest => exact h.small_alt w (by rw [halt]; exact List.mem_cons_self)
  · exact h.small v hv

theorem op_2drop_keeps : Op safe env pc pos conds op_2drop :=
  ((Keeps.require 2 _).bind fun _ _ => Keeps.pop.bind fun _ _ => Keeps.pop).op

theorem op_2dup_keeps : Op safe env pc pos conds op_2dup := by
  refine (Keeps.require 2 _).bind fun _ _ => (Keeps.top 1 (by decide)).bind fun v1 h1 => ?_
  refine (Keeps.top 0 (by decide)).bind fun v2 h2 => ?_
  exact ((Keeps.push h1).bind fun _ _ => Keeps.push h2).mono (Nat.zero_le _) fun _ h => h

theorem op_3dup_keeps : Op safe env pc pos conds op_3dup := by
  refine (Keeps.require 3 _).bind fun _ _ => (Keeps.top 2 (by decide)).bind fun v1 h1 => ?_
  refine (Keeps.top 1 (by decide)).bind fun v2 h2 => (Keeps.top 0 (by decide)).bind fun v3 h3 => ?_
  exact ((Keeps.push h1).bind fun _ _ => (Keeps.push h2).bind fun _ _ => Keeps.push h3).mono (Nat.zero_le _)
    fun _ h => h

theorem op_2over_keeps : Op safe env pc pos conds op_2over := by
  refine (Keeps.require 4 _).bind fun _ _ => (Keeps.top 3 (by decide)).bind fun v1 h1 => ?_
  refine (Keeps.top 2 (by decide)).bind fun v2 h2 => ?_
  exact ((Keeps.push h1).bind fun _ _ => Keeps.push h2).mono (Nat.zero_le _) fun _ h => h

theorem op_2rot_keeps : Op safe env pc pos conds op_2rot := by
  refine (Keeps.require 6 _).bind fun _ _ => (Keeps.remove 5 (by decide)).bind fun v1 h1 => ?_
  refine (Keeps.remove 4 (by decide)).bind fun v2 h2 => ?_
  exact ((Keeps.push h1).bind fun _ _ => Keeps.push h2).mono (Nat.zero_le _) fun _ h => h

theorem op_2swap_keeps : Op safe env pc pos conds op_2swap := by
  refine (Keeps.require 4 _).bind fun _ _ => (Keeps.swap 3 1 (by decide) (by decide)).bind fun _ _ => ?_
  exact (Keeps.swap 2 0 (by decide) (by decide)).mono (Nat.zero_le _) fun _ h => h

theorem op_ifdup_keeps : Op safe env pc pos conds op_ifdup := by
  refine (Keeps.require 1 _).bind fun _ _ => (Keeps.top 0 (by decide)).bind fun v hv =>
    Keeps.ite (fun _ => ?_) fun _ => ?_
  · exact (Keeps.push hv).mono (Nat.zero_le _) fun _ h => h
  · exact Keeps.pure () trivial (Nat.zero_le _)

theorem op_depth_keeps : Op safe env pc pos conds op_depth := by
  refine Keeps.get fun m hm => Triple.weaken (P := Kept safe env pc pos conds 0) ?_ ?_ fun _ _ h => h
  · exact (Keeps.push fun _ => small_encode _).mono (Nat.zero_le _) fun _ h => h
  · rintro _ rfl
    exact hm

theorem op_drop_keeps : Op safe env pc pos conds op_drop := ((Keeps.require 1 _).bind fun _ _ => Keeps.pop).op

theorem op_dup_keeps : Op safe env pc pos conds op_dup :=
  ((Keeps.require 1 _).bind fun _ _ => (Keeps.top 0 (by decide)).bind fun _ h => Keeps.push h).op

theorem op_nip_keeps : Op safe env pc pos conds op_nip :=
  (Keeps.require 2 _).bind fun _ _ => (Keeps.remove 1 (by decide)).bind fun _ _ =>
    Keeps.pure () trivial (Nat.zero_le _)

theorem op_over_keeps : Op safe env pc pos conds op_over :=
  ((Keeps.require 2 _).bind fun _ _ => (Keeps.top 1 (by decide)).bind fun _ h => Keeps.push h).op

theorem op_rot_keeps : Op safe env pc pos conds op_rot := by
  refine (Keeps.require 3 _).bind fun _ _ => (Keeps.swap 2 1 (by decide) (by decide)).bind fun _ _ => ?_
  exact (Keeps.swap 1 0 (by decide) (by decide)).mono (Nat.zero_le _) fun _ h => h

theorem op_swap_keeps : Op safe env pc pos conds op_swap :=
  ((Keeps.require 2 _).bind fun _ _ => Keeps.swap 1 0 (by decide) (by decide)).op

theorem op_tuck_keeps : Op safe env pc pos conds op_tuck :=
  ((Keeps.require 2 _).bind fun _ _ => (Keeps.top 0 (by decide)).bind fun _ h => Keeps.insert 2 (by decide) h).op

theorem op_size_keeps : Op safe env pc pos conds op_size :=
  ((Keeps.require 1 _).bind fun _ _ => (Keeps.top 0 (by decide)).bind fun _ _ =>
    Keeps.push fun _ => small_encode _).op

variable (opcode : UInt8) (success : Bool)

theorem op_equal_keeps : Op safe env pc pos conds (op_equal opcode) := by
  refine (Keeps.require 2 _).bind fun _ _ => (Keeps.top 1 (by decide)).bind fun v1 _ => ?_
  refine (Keeps.top 0 (by decide)).bind fun v2 _ => Keeps.pop.bind fun _ _ => Keeps.pop.bind fun _ _ => ?_
  exact push_verdict_keeps _ _ _

theorem op_unary_keeps : Op safe env pc pos conds (op_unary env opcode) := by
  refine (Keeps.require 1 _).bind fun _ _ => (Keeps.number 0 _ (by decide) (by decide)).bind fun n _ => ?_
  exact (Keeps.pop.bind fun _ _ => Keeps.push fun _ => small_encode _).mono (Nat.zero_le _) fun _ h => h

theorem op_binary_keeps : Op safe env pc pos conds (op_binary env opcode) := by
  refine (Keeps.require 2 _).bind fun _ _ => (Keeps.number 1 _ (by decide) (by decide)).bind fun n1 _ => ?_
  refine (Keeps.number 0 _ (by decide) (by decide)).bind fun n2 _ => Keeps.pop.bind fun _ _ =>
    Keeps.pop.bind fun _ _ => ?_
  refine (Keeps.push fun _ => small_encode _).bind fun _ _ => Keeps.ite (fun _ => ?_) fun _ => ?_
  · refine (Keeps.top 0 (by decide)).bind fun v _ => Keeps.ite (fun _ => ?_) fun _ => Keeps.fail _
    exact Keeps.pop.mono (Nat.zero_le _) fun _ h => h
  · exact Keeps.pure () trivial (Nat.zero_le _)

theorem op_within_keeps : Op safe env pc pos conds (op_within env) := by
  refine (Keeps.require 3 _).bind fun _ _ => (Keeps.number 2 _ (by decide) (by decide)).bind fun n1 _ => ?_
  refine (Keeps.number 1 _ (by decide) (by decide)).bind fun n2 _ => ?_
  refine (Keeps.number 0 _ (by decide) (by decide)).bind fun n3 _ => ?_
  refine Keeps.pop.bind fun _ _ => Keeps.pop.bind fun _ _ => Keeps.pop.bind fun _ _ => ?_
  exact (Keeps.push fun _ => small_bool _).mono (Nat.zero_le _) fun _ h => h

theorem op_hash_keeps [Digests] (hsized : safe → Digests.Sized) (opcode : UInt8) :
    Op safe env pc pos conds (op_hash opcode) := by
  refine ((Keeps.require 1 _).bind fun _ _ => (Keeps.top 0 (by decide)).bind fun v _ => Keeps.pop.bind fun _ _ =>
    Keeps.push fun hs => ?_).op
  have h := hsized hs
  unfold Small
  split
  · rw [h.ripemd160]; decide
  split
  · rw [h.sha1]; decide
  split
  · rw [h.sha256]; decide
  · split
    · rw [h.ripemd160]; decide
    · rw [h.sha256]; decide

theorem op_codeseparator_keeps (hpc : pc ≤ env.script.length) : Op safe env pc pos conds op_codeseparator := by
  refine Keeps.modify fun m hm => ⟨hm.at_pc, hm.at_pos, fun hs => ?_⟩
  have h := hm.bounded hs
  exact { h with code := by rw [hm.at_pc]; exact hpc }

theorem set_cond_keeps {m : Machine} {cond : Option ConditionStack} {conds' : ℕ}
    (hm : Kept safe env pc pos conds depth m) (hcond : safe → ∃ c, cond = some c ∧ c.size ≤ conds') :
    Triple (Admits safe) (Halts safe) (· = m) (set_cond cond) fun _ m => True ∧ Kept safe env pc pos conds' 0 m := by
  cases cond with
  | none =>
    refine Triple.throw fun _ _ hs => ?_
    obtain ⟨c, hc, -⟩ := hcond hs
    cases hc
  | some cond =>
    refine Triple.modify ?_
    rintro m rfl
    refine ⟨trivial, hm.at_pc, hm.at_pos, fun hs => ?_⟩
    have h := hm.bounded hs
    obtain ⟨c, hc, hsize⟩ := hcond hs
    cases hc
    exact { h with deep := Nat.zero_le _, conds := hsize }

abbrev OpensOne (safe : Prop) (env : Env) (pc pos conds : ℕ) (f : Run Unit) : Prop :=
  Triple (Admits safe) (Halts safe) (Kept safe env pc pos conds 0) f fun _ m =>
    True ∧ Kept safe env pc pos (conds + 1) 0 m

theorem Op.opens {f : Run Unit} (h : Op safe env pc pos conds f) : OpensOne safe env pc pos conds f :=
  Triple.weaken h (fun _ h => h) fun _ _ h => ⟨trivial, h.2.mono (Nat.le_succ _) (Nat.le_refl _)⟩

theorem op_else_keeps : Op safe env pc pos conds op_else := by
  refine Keeps.get fun m hm => Triple.ite (fun _ => Triple.throw fun _ _ _ => nofun) fun hne => set_cond_keeps hm ?_
  intro hs
  have h := (hm.bounded hs).conds
  have hpos : m.cond.size ≠ 0 := by simpa [ConditionStack.is_empty] using hne
  unfold ConditionStack.toggle_top
  rw [if_neg hpos]
  split
  · exact ⟨_, rfl, h⟩
  · split
    · exact ⟨_, rfl, h⟩
    · exact ⟨_, rfl, h⟩

theorem op_endif_keeps : Op safe env pc pos conds op_endif := by
  refine Keeps.get fun m hm => Triple.ite (fun _ => Triple.throw fun _ _ _ => nofun) fun hne => set_cond_keeps hm ?_
  intro hs
  have h := (hm.bounded hs).conds
  have hpos : m.cond.size ≠ 0 := by simpa [ConditionStack.is_empty] using hne
  unfold ConditionStack.pop
  rw [if_neg hpos]
  exact ⟨_, rfl, (Nat.sub_le _ _).trans h⟩

theorem push_cond_opens (hconds : safe → conds < ConditionStack.NO_FALSE) (value : Bool) :
    OpensOne safe env pc pos conds (push_cond value) := by
  refine Triple.bind Triple.get fun m => Triple.assume ?_
  rintro m ⟨rfl, hm⟩
  refine set_cond_keeps hm fun hs => ?_
  have h := (hm.bounded hs).conds
  have hroom := hconds hs
  unfold ConditionStack.push
  rw [if_neg (by omega)]
  exact ⟨_, rfl, Nat.succ_le_succ h⟩

theorem check_minimal_if_keeps (vch : Element) :
    Keeps safe env pc pos conds depth depth (check_minimal_if env vch) fun _ => True :=
  Keeps.ite (fun _ => Keeps.fail _) fun _ => Keeps.ite (fun _ => Keeps.fail _) fun _ => Keeps.done

theorem op_if_opens (hconds : safe → conds < ConditionStack.NO_FALSE) (opcode : UInt8) (f_exec : Bool) :
    OpensOne safe env pc pos conds (op_if env opcode f_exec) := by
  refine Triple.ite (fun _ => ?_) fun _ => push_cond_opens hconds false
  refine Triple.bind (Keeps.require 1 _) fun _ => Triple.of_fact fun _ => ?_
  refine Triple.bind (Keeps.top 0 (by decide)) fun vch => Triple.of_fact fun _ => ?_
  refine Triple.bind (check_minimal_if_keeps vch) fun _ => Triple.of_fact fun _ => ?_
  exact Triple.bind Keeps.pop fun _ => Triple.of_fact fun _ => push_cond_opens hconds _

theorem op_pick_keeps : Op safe env pc pos conds (op_pick env opcode) := by
  refine (Keeps.require 2 _).bind fun _ _ => (Keeps.number 0 _ (by decide) (by decide)).bind fun n _ => ?_
  refine Keeps.pop.bind fun _ _ => Keeps.get fun m hm =>
    Triple.ite (fun _ => Triple.throw fun _ _ _ => nofun) fun hn => ?_
  have hdeep : (getint n).toNat < m.stack.length := by omega
  refine Triple.weaken (P := Kept safe env pc pos conds m.stack.length) ?_ ?_ fun _ _ h => h
  · refine Keeps.ite (fun _ => ?_) fun _ => ?_
    · exact ((Keeps.remove _ hdeep).bind fun v hv => Keeps.push hv).mono (Nat.zero_le _) fun _ h => h
    · exact ((Keeps.top _ hdeep).bind fun v hv => Keeps.push hv).mono (Nat.zero_le _) fun _ h => h
  · rintro m rfl
    refine ⟨hm.at_pc, hm.at_pos, fun hs => ?_⟩
    have h := hm.bounded hs
    exact { h with deep := Nat.le_refl _ }

theorem script_code_keeps : Keeps safe env pc pos conds depth depth (script_code env) fun _ => True := by
  refine Keeps.get fun m hm => Triple.ite (fun hlt => Triple.throw ?_) fun _ => Triple.pure _ ?_
  · rintro _ rfl hs
    have hcode := (hm.bounded hs).code
    omega
  · rintro _ rfl
    exact ⟨trivial, hm⟩

theorem drop_signature_keeps (code sig : List UInt8) :
    Keeps safe env pc pos conds depth depth (drop_signature env code sig) fun _ => True :=
  Keeps.ite (fun _ => Keeps.fail _) fun _ => Keeps.pure _ trivial (Nat.le_refl _)

theorem signed_code_keeps (sig : Element) :
    Keeps safe env pc pos conds depth depth (signed_code env sig) fun _ => True :=
  script_code_keeps.bind fun _ _ => Keeps.ite (fun _ => drop_signature_keeps _ _) fun _ =>
    Keeps.pure _ trivial (Nat.le_refl _)

theorem check_null_fail_keeps (sig : Element) :
    Keeps safe env pc pos conds depth depth (check_null_fail env success sig) fun _ => True :=
  Keeps.ite (fun _ => Keeps.fail _) fun _ => Keeps.done

theorem check_encodings_keeps (sig pubkey : Element) :
    Keeps safe env pc pos conds depth depth (check_encodings env sig pubkey) fun _ => True :=
  (Keeps.attempt fun _ _ => trivial).bind fun _ _ => Keeps.attempt fun _ _ => trivial

theorem eval_checksig_pre_tapscript_keeps (sig pubkey : Element) :
    Keeps safe env pc pos conds depth depth (eval_checksig_pre_tapscript env sig pubkey) fun _ => True := by
  refine (signed_code_keeps sig).bind fun _ _ => (check_encodings_keeps sig pubkey).bind fun _ _ => ?_
  refine (Keeps.ask _).bind fun _ _ => (check_null_fail_keeps _ sig).bind fun _ _ => ?_
  exact Keeps.pure _ trivial (Nat.le_refl _)

theorem counts_keeps {m : Machine} {x : ℤ} {past : ℤ → Prop} [DecidablePred past] {set : ℤ → Machine → Machine}
    {e : ScriptError} (hfits : safe → i64_fits x) (hset : ¬past x → Kept safe env pc pos conds depth (set x m)) :
    Triple (Admits safe) (Halts safe) (· = m)
      (checked x >>= fun y => Exec.modify (set y) >>= fun _ => if past y then fail e else Pure.pure ())
      fun _ m' => True ∧ Kept safe env pc pos conds depth m' := by
  have hchecked : Triple (Admits safe) (Halts safe) (· = m) (checked x) fun y m' => y = x ∧ m' = m :=
    Triple.ite (fun _ => Triple.pure _ fun _ hm => ⟨rfl, hm⟩) fun hk => Triple.throw fun _ _ hs => absurd (hfits hs) hk
  refine hchecked.bind fun y => Triple.of_fact fun hy => ?_
  subst hy
  by_cases hover : past y
  · simp only [if_pos hover]
    exact Triple.bind (C := fun _ _ => True) (Triple.modify fun _ _ => trivial) fun _ =>
      Triple.throw fun _ _ _ => nofun
  · simp only [if_neg hover]
    refine Triple.bind (C := fun _ => Kept safe env pc pos conds depth) (Triple.modify ?_) fun _ =>
      Triple.pure () fun _ h => ⟨trivial, h⟩
    rintro _ rfl
    exact hset hover

theorem spend_validation_weight_keeps :
    Keeps safe env pc pos conds depth depth spend_validation_weight fun _ => True := by
  refine Keeps.get fun m hm => counts_keeps (fun hs => ?_) fun hleft => ⟨hm.at_pc, hm.at_pos, fun hs => ?_⟩
  · have h := hm.bounded hs
    have hge := h.weight_ge
    have hle := h.weight_le
    rw [i64_fits_iff]
    simp only [VALIDATION_WEIGHT_PER_SIGOP_PASSED] at hge ⊢
    omega
  · have h := hm.bounded hs
    have hle := h.weight_le
    refine { h with weight_ge := ?_, weight_le := ?_ } <;>
      simp only [VALIDATION_WEIGHT_PER_SIGOP_PASSED, I64_MIN] at hleft ⊢ <;> omega

theorem check_schnorr_keeps (sig pubkey : Element) (sigversion : SigVersion) :
    Keeps safe env pc pos conds depth depth (check_schnorr sig pubkey sigversion) fun _ => True := by
  refine Keeps.get fun m hm => Triple.bind (Triple.ask _) fun answer => Triple.of_fact fun hanswer => ?_
  refine Triple.bind (C := fun _ => Kept safe env pc pos conds depth) (Triple.modify ?_) fun _ => ?_
  · rintro _ rfl
    refine ⟨hm.at_pc, hm.at_pos, fun hs => ?_⟩
    have h := hm.bounded hs
    exact { h with weight_ge := (hanswer hs).1, weight_le := (hanswer hs).2 }
  · exact Keeps.attempt fun _ _ => trivial

theorem check_tapscript_key_keeps (sig pubkey : Element) :
    Keeps safe env pc pos conds depth depth (check_tapscript_key env sig pubkey) fun _ => True := by
  refine Keeps.ite (fun _ => Keeps.fail _) fun _ => Keeps.ite (fun _ => ?_) fun _ => ?_
  · exact Keeps.ite (fun _ => check_schnorr_keeps sig pubkey _) fun _ => Keeps.done
  · exact Keeps.ite (fun _ => Keeps.fail _) fun _ => Keeps.done

theorem eval_checksig_tapscript_keeps (sig pubkey : Element) :
    Keeps safe env pc pos conds depth depth (eval_checksig_tapscript env sig pubkey) fun _ => True := by
  have hkey : Keeps safe env pc pos conds depth depth
      (check_tapscript_key env sig pubkey >>= fun _ => Pure.pure (!sig.isEmpty)) fun _ => True :=
    (check_tapscript_key_keeps sig pubkey).bind fun _ _ => Keeps.pure _ trivial (Nat.le_refl _)
  exact Keeps.ite (fun _ => spend_validation_weight_keeps.bind fun _ _ => hkey) fun _ => Keeps.done.bind fun _ _ =>
    hkey

section

variable (hversion : safe → env.sigversion ≠ .Taproot)
include hversion

theorem eval_checksig_keeps (sig pubkey : Element) :
    Keeps safe env pc pos conds depth depth (eval_checksig env sig pubkey) fun _ => True := by
  unfold eval_checksig
  cases h : env.sigversion with
  | Base => exact eval_checksig_pre_tapscript_keeps sig pubkey
  | WitnessV0 => exact eval_checksig_pre_tapscript_keeps sig pubkey
  | Tapscript => exact eval_checksig_tapscript_keeps sig pubkey
  | Taproot => exact Triple.throw fun _ _ hs => absurd h (hversion hs)

theorem op_checksig_keeps (opcode : UInt8) :
    Op safe env pc pos conds (op_checksig env opcode) := by
  refine (Keeps.require 2 _).bind fun _ _ => (Keeps.top 1 (by decide)).bind fun sig _ => ?_
  refine (Keeps.top 0 (by decide)).bind fun pubkey _ =>
    (eval_checksig_keeps hversion sig pubkey).bind fun success _ => ?_
  exact Keeps.pop.bind fun _ _ => Keeps.pop.bind fun _ _ => push_verdict_keeps _ _ _

theorem op_checksigadd_keeps :
    Op safe env pc pos conds (op_checksigadd env) := by
  refine Keeps.ite (fun _ => Keeps.fail _) fun _ => (Keeps.require 3 _).bind fun _ _ => ?_
  refine (Keeps.top 2 (by decide)).bind fun sig _ => (Keeps.number 1 _ (by decide) (by decide)).bind fun num hnum =>
    ?_
  refine (Keeps.top 0 (by decide)).bind fun pubkey _ =>
    (eval_checksig_keeps hversion sig pubkey).bind fun success _ => ?_
  refine Keeps.pop.bind fun _ _ => Keeps.pop.bind fun _ _ => Keeps.pop.bind fun _ _ => ?_
  have hfits : safe → i64_fits (num + of_bool success) := by
    intro _
    have hbit : 0 ≤ of_bool success ∧ of_bool success ≤ 1 := by cases success <;> decide
    rw [i64_fits_iff]
    unfold I64_MIN I64_MAX
    omega
  refine (Keeps.checked _ hfits).bind fun sum _ => ?_
  exact (Keeps.push fun _ => small_encode _).mono (Nat.zero_le _) fun _ h => h

end

theorem count_ops_keeps (n : ℤ) (hn : 0 ≤ n ∧ n ≤ MAX_PUBKEYS_PER_MULTISIG) :
    Keeps safe env pc pos conds depth depth (count_ops n) fun _ => True := by
  refine Keeps.get fun m hm => counts_keeps (fun hs => ?_) fun hmany => ⟨hm.at_pc, hm.at_pos, fun hs => ?_⟩
  · have h := hm.bounded hs
    have hge := h.ops_nonneg
    have hle := h.ops_le
    rw [i64_fits_iff]
    simp only [MAX_OPS_PER_SCRIPT, MAX_PUBKEYS_PER_MULTISIG, I64_MIN, I64_MAX] at hn hle ⊢
    omega
  · have h := hm.bounded hs
    have hge := h.ops_nonneg
    exact { h with ops_nonneg := show 0 ≤ m.op_count + n by omega, ops_le := Int.not_lt.mp hmany }

theorem drop_signatures_keeps (isig count : ℕ) (code : List UInt8) (h : isig + count ≤ depth) :
    Keeps safe env pc pos conds depth depth (drop_signatures env (isig + 1) count code) fun _ => True := by
  induction count generalizing isig code with
  | zero => exact Keeps.pure _ trivial (Nat.le_refl _)
  | succ count ih =>
    refine (Keeps.top isig (by omega)).bind fun sig _ => (drop_signature_keeps code sig).bind fun code' _ => ?_
    exact ih (isig + 1) code' (by omega)

theorem multisig_code_keeps (isig count : ℕ) (h : isig + count ≤ depth) :
    Keeps safe env pc pos conds depth depth (multisig_code env (isig + 1) count) fun _ => True :=
  script_code_keeps.bind fun code _ => Keeps.ite (fun _ => drop_signatures_keeps isig count code h) fun _ =>
    Keeps.pure _ trivial (Nat.le_refl _)

theorem match_signatures_keeps (code : List UInt8) (isig sigs_count ikey keys_count : ℕ)
    (hsigs : isig + sigs_count ≤ depth) (hkeys : ikey + keys_count ≤ depth) :
    Keeps safe env pc pos conds depth depth (match_signatures env code (isig + 1) sigs_count (ikey + 1) keys_count)
      fun _ => True := by
  induction keys_count generalizing isig sigs_count ikey with
  | zero =>
    cases sigs_count with
    | zero => exact Keeps.pure _ trivial (Nat.le_refl _)
    | succ sigs_count => exact Keeps.pure _ trivial (Nat.le_refl _)
  | succ keys_count ih =>
    cases sigs_count with
    | zero => exact Keeps.pure _ trivial (Nat.le_refl _)
    | succ sigs_count =>
      refine (Keeps.top isig (by omega)).bind fun sig _ => (Keeps.top ikey (by omega)).bind fun pubkey _ => ?_
      refine (check_encodings_keeps sig pubkey).bind fun _ _ => (Keeps.ask _).bind fun ok _ => ?_
      cases ok with
      | true =>
        refine Keeps.ite (fun _ => Keeps.pure _ trivial (Nat.le_refl _)) fun _ => ?_
        exact ih (isig + 1) sigs_count (ikey + 1) (by omega) (by omega)
      | false =>
        refine Keeps.ite (fun _ => Keeps.pure _ trivial (Nat.le_refl _)) fun _ => ?_
        exact ih isig (sigs_count + 1) (ikey + 1) (by omega) (by omega)

theorem check_null_fail_top_keeps (ikey2 : ℕ) (h : 0 < depth) :
    Keeps safe env pc pos conds depth depth (check_null_fail_top env success ikey2) fun _ => True := by
  refine Keeps.ite (fun _ => (Keeps.top 0 h).bind fun v _ => ?_) fun _ => Keeps.done
  exact Keeps.ite (fun _ => Keeps.fail _) fun _ => Keeps.done

theorem pop_arguments_keeps (i ikey2 : ℕ) (h : i ≤ depth) :
    Keeps safe env pc pos conds depth (depth - i) (pop_arguments env success i ikey2) fun _ => True := by
  induction i generalizing ikey2 depth with
  | zero => exact Keeps.done
  | succ i ih =>
    refine (check_null_fail_top_keeps success ikey2 (by omega)).bind fun _ _ => Keeps.pop.bind fun _ _ => ?_
    have hrest : depth - (i + 1) = depth - 1 - i := by omega
    rw [hrest]
    exact ih _ (by omega)

theorem check_null_dummy_keeps (h : 0 < depth) :
    Keeps safe env pc pos conds depth depth (check_null_dummy env) fun _ => True := by
  refine Keeps.ite (fun _ => (Keeps.top 0 h).bind fun v _ => ?_) fun _ => Keeps.done
  exact Keeps.ite (fun _ => Keeps.fail _) fun _ => Keeps.done

theorem multisig_verdict_keeps (keys_count sigs_count : ℕ) :
    Keeps safe env pc pos conds (3 + keys_count + sigs_count) 0 (do
      let code ← multisig_code env (3 + keys_count) sigs_count
      let success ← match_signatures env code (3 + keys_count) sigs_count 2 keys_count
      pop_arguments env success (3 + keys_count + sigs_count - 1) (keys_count + 2)
      require 1
      check_null_dummy env
      pop
      push_verdict success (opcode == OP_CHECKMULTISIGVERIFY) .CheckMultisigVerify) fun _ => True := by
  have hat : 3 + keys_count = 2 + keys_count + 1 := by omega
  rw [hat]
  refine (multisig_code_keeps _ _ (by omega)).bind fun code _ => ?_
  refine (match_signatures_keeps code _ _ 1 _ (by omega) (by omega)).bind fun success _ => ?_
  refine (pop_arguments_keeps success _ _ (by omega)).bind fun _ _ => (Keeps.require 1 _).bind fun _ _ => ?_
  refine (check_null_dummy_keeps (by omega)).bind fun _ _ => Keeps.pop.bind fun _ _ => ?_
  exact (push_verdict_keeps _ _ _).mono (Nat.zero_le _) fun _ h => h

theorem op_checkmultisig_keeps : Op safe env pc pos conds (op_checkmultisig env opcode) := by
  refine Keeps.ite (fun _ => Keeps.fail _) fun _ => (Keeps.require 1 _).bind fun _ _ => ?_
  refine (Keeps.number 0 _ (by decide) (by decide)).bind fun n _ => Keeps.ite (fun _ => Keeps.fail _) fun hkeys => ?_
  push Not at hkeys
  refine (count_ops_keeps _ hkeys).bind fun _ _ => ?_
  generalize hk : (getint n).toNat = keys_count
  refine (Keeps.require (2 + keys_count) _).bind fun _ _ => ?_
  have hnumber : Keeps safe env pc pos conds (max (2 + keys_count) (max 1 0)) (max (2 + keys_count) (max 1 0))
      (number env (2 + keys_count) MAX_SCRIPTNUM_SIZE) fun k => k.natAbs < 256 ^ 5 := by
    rw [show 2 + keys_count = 1 + keys_count + 1 by omega]
    exact Keeps.number _ _ (by omega) (by decide)
  refine hnumber.bind fun n' _ => Keeps.ite (fun _ => Keeps.fail _) fun hsigs => ?_
  generalize hs : (getint n').toNat = sigs_count
  refine (Keeps.require (3 + keys_count + sigs_count) _).bind fun _ _ => ?_
  exact Keeps.deeper (Nat.le_max_left _ _) (multisig_verdict_keeps opcode keys_count sigs_count)

theorem eval_plain_keeps [Digests] (hsized : safe → Digests.Sized) (hpc : pc ≤ env.script.length) (opcode : UInt8) :
    Op safe env pc pos conds (eval_plain opcode) := by
  refine Keeps.ite (fun _ => (Keeps.push fun _ => small_encode _).op) fun _ => ?_
  refine Keeps.ite (fun _ => Keeps.done) fun _ => Keeps.ite (fun _ => op_else_keeps) fun _ => ?_
  refine Keeps.ite (fun _ => op_endif_keeps) fun _ => Keeps.ite (fun _ => op_verify_keeps) fun _ => ?_
  refine Keeps.ite (fun _ => Keeps.fail _) fun _ => Keeps.ite (fun _ => op_toaltstack_keeps) fun _ => ?_
  refine Keeps.ite (fun _ => op_fromaltstack_keeps) fun _ => Keeps.ite (fun _ => op_2drop_keeps) fun _ => ?_
  refine Keeps.ite (fun _ => op_2dup_keeps) fun _ => Keeps.ite (fun _ => op_3dup_keeps) fun _ => ?_
  refine Keeps.ite (fun _ => op_2over_keeps) fun _ => Keeps.ite (fun _ => op_2rot_keeps) fun _ => ?_
  refine Keeps.ite (fun _ => op_2swap_keeps) fun _ => Keeps.ite (fun _ => op_ifdup_keeps) fun _ => ?_
  refine Keeps.ite (fun _ => op_depth_keeps) fun _ => Keeps.ite (fun _ => op_drop_keeps) fun _ => ?_
  refine Keeps.ite (fun _ => op_dup_keeps) fun _ => Keeps.ite (fun _ => op_nip_keeps) fun _ => ?_
  refine Keeps.ite (fun _ => op_over_keeps) fun _ => Keeps.ite (fun _ => op_rot_keeps) fun _ => ?_
  refine Keeps.ite (fun _ => op_swap_keeps) fun _ => Keeps.ite (fun _ => op_tuck_keeps) fun _ => ?_
  refine Keeps.ite (fun _ => op_size_keeps) fun _ => Keeps.ite (fun _ => op_equal_keeps opcode) fun _ => ?_
  refine Keeps.ite (fun _ => op_hash_keeps hsized opcode) fun _ => ?_
  exact Keeps.ite (fun _ => op_codeseparator_keeps hpc) fun _ => Keeps.fail _

theorem eval_op_opens [Digests] (hsized : safe → Digests.Sized) (hversion : safe → env.sigversion ≠ .Taproot)
    (hpc : pc ≤ env.script.length) (hconds : safe → conds < ConditionStack.NO_FALSE) (opcode : UInt8)
    (f_exec : Bool) :
    OpensOne safe env pc pos conds (eval_op env opcode f_exec) := by
  refine Triple.ite (fun _ => op_checklocktimeverify_keeps.opens) fun _ => ?_
  refine Triple.ite (fun _ => op_checksequenceverify_keeps.opens) fun _ => ?_
  refine Triple.ite (fun _ => op_nop_keeps.opens) fun _ =>
    Triple.ite (fun _ => op_if_opens hconds opcode f_exec) fun _ => ?_
  refine Triple.ite (fun _ => (op_pick_keeps opcode).opens) fun _ => ?_
  refine Triple.ite (fun _ => (op_unary_keeps opcode).opens) fun _ => ?_
  refine Triple.ite (fun _ => (op_binary_keeps opcode).opens) fun _ => ?_
  refine Triple.ite (fun _ => op_within_keeps.opens) fun _ => ?_
  refine Triple.ite (fun _ => (op_checksig_keeps hversion opcode).opens) fun _ => ?_
  refine Triple.ite (fun _ => (op_checksigadd_keeps hversion).opens) fun _ => ?_
  refine Triple.ite (fun _ => (op_checkmultisig_keeps opcode).opens) fun _ => ?_
  exact (eval_plain_keeps hsized hpc opcode).opens

theorem count_opcode_keeps :
    Keeps safe env pc pos conds depth depth (count_opcode env opcode) fun _ => True :=
  Keeps.ite (fun _ => count_ops_keeps 1 (by decide)) fun _ => Keeps.done

theorem check_banned_keeps :
    Keeps safe env pc pos conds depth depth (check_banned env opcode) fun _ => True :=
  Keeps.ite (fun _ => Keeps.fail _) fun _ => Keeps.ite (fun _ => Keeps.fail _) fun _ => Keeps.done

theorem check_minimal_data_keeps (data : Element) (opcode : UInt8) :
    Keeps safe env pc pos conds depth depth (check_minimal_data env data opcode) fun _ => True :=
  Keeps.ite (fun _ => Keeps.fail _) fun _ => Keeps.done

theorem execute_opens [Digests] (hsized : safe → Digests.Sized) (hversion : safe → env.sigversion ≠ .Taproot)
    (hpc : pc ≤ env.script.length) (hconds : safe → conds < ConditionStack.NO_FALSE) (opcode : UInt8)
    {data : Element} (hdata : Small data) (f_exec : Bool) :
    OpensOne safe env pc pos conds (execute env opcode data f_exec) := by
  refine Triple.ite (fun _ => ?_) fun _ => Triple.ite (fun _ => ?_) fun _ => ?_
  · have hpush : Op safe env pc pos conds (check_minimal_data env data opcode >>= fun _ => push data) :=
      ((check_minimal_data_keeps data opcode).bind fun _ _ => Keeps.push fun _ => hdata).op
    exact hpush.opens
  · exact eval_op_opens hsized hversion hpc hconds opcode f_exec
  · exact Op.opens Keeps.done

end AvilaNode.Interpreter
