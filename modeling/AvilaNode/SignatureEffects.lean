import AvilaNode.ScriptEffects

/-! What the opcodes that check signatures do to the stack, and which signatures they saw accepted. -/

namespace AvilaNode.Interpreter

open OraclePrograms Exec Effect

def Accepts (answer : (q : Query) → Answer q) (env : Env) (sig pubkey : Element) : Prop :=
  if env.sigversion = .Tapscript then
    sig ≠ [] ∧ (pubkey.length = 32 → ∃ execdata,
      (answer (.check_schnorr_signature sig pubkey .Tapscript execdata) : Except ScriptError Unit × ExecutionData).1 =
        .ok ())
  else answer (.check_ecdsa_signature sig pubkey env.script env.sigversion) = true

def Signed (answer : (q : Query) → Answer q) (env : Env) (pubkey : Element) : Prop :=
  ∃ sig, Accepts answer env sig pubkey

variable {answer : (q : Query) → Answer q} {env : Env}

variable {m : Machine} {sig pubkey : Element} {r : Unit × Machine} {ok : Bool}

theorem eval_script_code_ok {r : List UInt8 × Machine} (h : eval answer (script_code env) m = .ok r) :
    r = (env.script.drop m.pbegincodehash, m) := by
  simp only [script_code, eval_bind_eq_ok, eval_get, Except.ok.injEq, exists_eq_left'] at h
  split at h
  · simp at h
  · simpa [eq_comm] using h

theorem eval_check_encodings_ok (h : eval answer (check_encodings env sig pubkey) m = .ok r) : r = ((), m) := by
  simp only [check_encodings, eval_bind_eq_ok, eval_attempt_ok] at h
  obtain ⟨p, ⟨-, hp⟩, -, hr⟩ := h
  exact Prod.ext rfl (hr.trans hp)

theorem eval_check_null_fail_ok {success : Bool} (h : eval answer (check_null_fail env success sig) m = .ok r) : r =
    ((), m) := by
  unfold check_null_fail at h
  split at h
  · simp at h
  · simpa [eq_comm] using h

variable {m' : Machine}

theorem eval_checksig_pre_tapscript_ok (hb : env.sigversion ≠ .Base)
    (ht :
    env.sigversion ≠ .Tapscript) (h : eval answer (eval_checksig_pre_tapscript env sig pubkey) m = .ok (ok, m')) :
    m' = m ∧ (m.pbegincodehash = 0 → ok = true → Accepts answer env sig pubkey) := by
  simp only [eval_checksig_pre_tapscript, signed_code, if_neg hb, eval_bind_eq_ok, eval_pure, Except.ok.injEq] at h
  obtain ⟨p, ⟨q, hcode, rfl⟩, r, henc, a, hask, n, hnull, h⟩ := h
  obtain rfl := eval_script_code_ok hcode
  obtain rfl := eval_check_encodings_ok henc
  obtain rfl := eval_ask_ok (.check_ecdsa_signature sig pubkey _ env.sigversion) hask
  obtain rfl := eval_check_null_fail_ok hnull
  cases h
  refine ⟨rfl, fun hz hok => ?_⟩
  rw [Accepts, if_neg ht]
  rwa [hz, List.drop_zero] at hok

theorem eval_spend_validation_weight_ok (h : eval answer spend_validation_weight m = .ok r) : ∃ execdata,
    r = ((), { m with execdata }) := by
  simp only [spend_validation_weight, eval_bind_eq_ok, eval_get, eval_modify, Except.ok.injEq, exists_eq_left'] at h
  obtain ⟨p, hp, h⟩ := h
  cases eval_checked_ok hp
  split at h
  · simp at h
  · simp only [eval_pure, Except.ok.injEq] at h
    exact ⟨_, h.symm⟩

theorem eval_check_schnorr_ok {sigversion : SigVersion}
    (h : eval answer (check_schnorr sig pubkey sigversion) m = .ok r) : ∃ execdata, r = ((), { m with execdata }) ∧
      (answer (.check_schnorr_signature sig pubkey sigversion m.execdata) :
        Except ScriptError Unit × ExecutionData).1 =
        .ok () := by
  simp only [check_schnorr, eval_bind_eq_ok, eval_get, eval_modify, Except.ok.injEq, exists_eq_left',
    eval_attempt_ok] at h
  obtain ⟨p, hp, ha, hr⟩ := h
  obtain rfl := eval_ask_ok (.check_schnorr_signature sig pubkey sigversion m.execdata) hp
  exact ⟨_, Prod.ext rfl hr, ha⟩

theorem eval_check_tapscript_key_ok (h : eval answer (check_tapscript_key env sig pubkey) m = .ok r) : ∃ execdata,
    r = ((), { m with execdata }) ∧
      (sig ≠ [] → pubkey.length = 32 → ∃ e,
        (answer (.check_schnorr_signature sig pubkey .Tapscript e) : Except ScriptError Unit × ExecutionData).1 =
          .ok ()) := by
  unfold check_tapscript_key at h
  split at h
  · simp at h
  split at h
  · cases hs : sig.isEmpty with
    | true =>
      simp [hs] at h
      exact ⟨m.execdata, h.symm, fun hne => absurd (List.isEmpty_iff.mp hs) hne⟩
    | false =>
      simp only [hs, Bool.not_false, if_true] at h
      obtain ⟨e, hr, ha⟩ := eval_check_schnorr_ok h
      exact ⟨e, hr, fun _ _ => ⟨_, ha⟩⟩
  · next hl =>
    split at h
    · simp at h
    · simp only [eval_pure, Except.ok.injEq] at h
      exact ⟨m.execdata, h.symm, fun _ h32 => absurd h32 hl⟩

theorem eval_checksig_tapscript_ok (ht : env.sigversion = .Tapscript)
    (h : eval answer (eval_checksig_tapscript env sig pubkey) m = .ok (ok, m')) :
    ∃ execdata, m' = { m with execdata } ∧ (ok = true → Accepts answer env sig pubkey) := by
  rw [Accepts, if_pos ht]
  cases hs : sig.isEmpty with
  | true =>
    simp only [eval_checksig_tapscript, hs, Bool.not_true, Bool.false_eq_true, if_false, eval_bind_eq_ok, eval_pure,
      Except.ok.injEq, Prod.mk.injEq] at h
    obtain ⟨q, hkey, rfl, rfl⟩ := h
    obtain ⟨e, rfl, -⟩ := eval_check_tapscript_key_ok hkey
    exact ⟨e, rfl, by simp⟩
  | false =>
    simp only [eval_checksig_tapscript, hs, Bool.not_false, if_true, eval_bind_eq_ok, eval_pure, Except.ok.injEq,
      Prod.mk.injEq] at h
    obtain ⟨p, hspend, q, hkey, rfl, rfl⟩ := h
    obtain ⟨e, rfl⟩ := eval_spend_validation_weight_ok hspend
    obtain ⟨e', rfl, ha⟩ := eval_check_tapscript_key_ok hkey
    have hne : sig ≠ [] := by
      rintro rfl
      simp at hs
    exact ⟨e', rfl, fun _ => ⟨hne, ha hne⟩⟩

theorem eval_checksig_ok (hb : env.sigversion ≠ .Base)
    (h : eval answer (eval_checksig env sig pubkey) m = .ok (ok, m')) : ∃ execdata, m' = { m with execdata } ∧
      (m.pbegincodehash = 0 → ok = true → Accepts answer env sig pubkey) := by
  unfold eval_checksig at h
  split at h
  · next hv => exact absurd hv hb
  · next hv =>
    obtain ⟨rfl, ha⟩ := eval_checksig_pre_tapscript_ok hb (by simp [hv]) h
    exact ⟨_, rfl, ha⟩
  · next hv =>
    obtain ⟨e, rfl, ha⟩ := eval_checksig_tapscript_ok hv h
    exact ⟨e, rfl, fun _ => ha⟩
  · simp at h

theorem performs_checksig (hb : env.sigversion ≠ .Base) (opcode : UInt8) : Performs answer (op_checksig env opcode)
    (on_stack fun s t => ∃ pubkey sig r ok, s = pubkey :: sig :: r ∧ (ok = true → Accepts answer env sig pubkey) ∧
      Leaves (opcode == OP_CHECKSIGVERIFY) ok r t) := by
  rintro ⟨_ | ⟨v, _ | ⟨w, r⟩⟩, alt, cond, n, c, e, pc, pos⟩ m' h
  · simp [op_checksig, eval_bind_eq_ok, eval_require_ok] at h
  · simp [op_checksig, eval_bind_eq_ok, eval_require_ok] at h
  · simp only [op_checksig, eval_bind_eq_ok, eval_require_ok, eval_top_ok, eval_pop, Except.ok.injEq,
      exists_eq_left'] at h
    obtain ⟨_, ⟨-, rfl⟩, ⟨sig, _⟩, ⟨hsig, rfl⟩, ⟨pubkey, _⟩, ⟨hkey, rfl⟩, ⟨ok, m₁⟩, hcheck, h⟩ := h
    obtain rfl : w = sig := Option.some.inj hsig
    obtain rfl : v = pubkey := Option.some.inj hkey
    obtain ⟨e', rfl, ha⟩ := eval_checksig_ok hb hcheck
    obtain ⟨t, rfl, ht⟩ := eval_push_verdict_ok h
    exact ⟨rfl, rfl, rfl, fun hz => ⟨rfl, v, w, r, ok, rfl, ha hz, ht⟩⟩

theorem performs_checksigadd (hb : env.sigversion ≠ .Base) : Performs answer (op_checksigadd env)
    (on_stack fun s t => ∃ pubkey v sig r n ok, s = pubkey :: v :: sig :: r ∧ IsNumber v n ∧
      (ok = true → Accepts answer env sig pubkey) ∧ t = encode_script_num (n + of_bool ok) :: r) := by
  rintro ⟨_ | ⟨v, _ | ⟨w, _ | ⟨x, r⟩⟩⟩, alt, cond, n, c, e, pc,
    pos⟩ m' h <;> unfold op_checksigadd at h <;> split at h
  · simp at h
  · simp [eval_bind_eq_ok, eval_require_ok] at h
  · simp at h
  · simp [eval_bind_eq_ok, eval_require_ok] at h
  · simp at h
  · simp [eval_bind_eq_ok, eval_require_ok] at h
  · simp at h
  · simp only [eval_bind_eq_ok, eval_require_ok, eval_top_ok, eval_number_ok, eval_pop, eval_push, Except.ok.injEq,
      exists_eq_left'] at h
    obtain ⟨_, ⟨-, rfl⟩, ⟨sig, _⟩, ⟨hsig, rfl⟩, ⟨k, _⟩, ⟨_, hnum, hk, rfl⟩, ⟨pubkey, _⟩, ⟨hkey, rfl⟩, ⟨ok, m₁⟩,
      hcheck, p, hsum, h⟩ := h
    obtain rfl : x = sig := Option.some.inj hsig
    obtain rfl : v = pubkey := Option.some.inj hkey
    cases hnum
    obtain ⟨e', rfl, ha⟩ := eval_checksig_ok hb hcheck
    cases eval_checked_ok hsum
    simp only [Prod.mk.injEq, true_and] at h
    subst h
    exact ⟨rfl, rfl, rfl, fun hz => ⟨rfl, v, w, x, r, k, ok, rfl, ⟨_, hk⟩, ha hz, rfl⟩⟩

theorem eval_match_signatures_ok (hb : env.sigversion = .WitnessV0) {code : List UInt8} (keys : ℕ) {isig sigs ikey :
    ℕ} {r : Bool × Machine} (h : eval answer (match_signatures env code (isig + 1) sigs (ikey + 1) keys) m = .ok r) :
    r.2 = m ∧ (code = env.script → r.1 = true →
      ∃ chosen : List Element, chosen.Sublist ((m.stack.drop ikey).take keys) ∧
      chosen.length = sigs ∧ ∀ pubkey ∈ chosen, Signed answer env pubkey) := by
  induction keys generalizing isig sigs ikey with
  | zero =>
    cases sigs with
    | zero =>
      simp [match_signatures] at h
      subst h
      exact ⟨rfl, fun _ _ => ⟨[], by simp, rfl, by simp⟩⟩
    | succ sigs =>
      simp [match_signatures] at h
      subst h
      exact ⟨rfl, by simp⟩
  | succ keys ih =>
    cases sigs with
    | zero =>
      simp [match_signatures] at h
      subst h
      exact ⟨rfl, fun _ _ => ⟨[], by simp, rfl, by simp⟩⟩
    | succ sigs =>
      simp only [match_signatures, eval_bind_eq_ok, eval_top_ok] at h
      obtain ⟨⟨sig, m₁⟩, ⟨hsig, h₁⟩, ⟨pubkey, m₂⟩, ⟨hkey, h₂⟩, c, henc, a, hask, h⟩ := h
      obtain rfl : m = m₁ := h₁.symm
      obtain rfl : m = m₂ := h₂.symm
      obtain rfl := eval_check_encodings_ok henc
      obtain rfl := eval_ask_ok (.check_ecdsa_signature sig pubkey code env.sigversion) hask
      have htake : (m.stack.drop ikey).take (keys + 1) = pubkey :: (m.stack.drop (ikey + 1)).take keys := by
        obtain ⟨hlt, hget⟩ := List.getElem?_eq_some_iff.mp hkey
        rw [List.drop_eq_getElem_cons hlt, hget, List.take_succ_cons]
      rw [htake]
      cases hok : answer (.check_ecdsa_signature sig pubkey code env.sigversion) with
      | false =>
        simp only [hok, Bool.false_eq_true, if_false] at h
        split at h
        · simp only [eval_pure, Except.ok.injEq] at h
          subst h
          exact ⟨rfl, by simp⟩
        · obtain ⟨hm, hmatch⟩ := ih h
          refine ⟨hm, fun hcode hr => ?_⟩
          obtain ⟨chosen, hsub, hlen, hsigned⟩ := hmatch hcode hr
          exact ⟨chosen, hsub.cons _, hlen, hsigned⟩
      | true =>
        simp only [hok, if_true] at h
        split at h
        · simp only [eval_pure, Except.ok.injEq] at h
          subst h
          exact ⟨rfl, by simp⟩
        · obtain ⟨hm, hmatch⟩ := ih h
          refine ⟨hm, fun hcode hr => ?_⟩
          obtain ⟨chosen, hsub, hlen, hsigned⟩ := hmatch hcode hr
          refine ⟨pubkey :: chosen, hsub.cons_cons _, by rw [List.length_cons, hlen], ?_⟩
          have hpub : Signed answer env pubkey := ⟨sig, by rwa [Accepts, if_neg (by simp [hb]), ← hcode]⟩
          simpa using ⟨hpub, hsigned⟩

theorem eval_pop_arguments_ok {success : Bool} {i ikey : ℕ}
    (h : eval answer (pop_arguments env success i ikey) m = .ok r) :
    r = ((), { m with stack := m.stack.drop i }) := by
  induction i generalizing ikey m with
  | zero => simpa [pop_arguments, eq_comm] using h
  | succ i ih =>
    simp only [pop_arguments, eval_bind_eq_ok, eval_pop, Except.ok.injEq, exists_eq_left'] at h
    obtain ⟨p, hnull, h⟩ := h
    have hp : p.2 = m := by
      unfold check_null_fail_top at hnull
      split at hnull
      · simp only [eval_bind_eq_ok, eval_top_ok] at hnull
        obtain ⟨q, ⟨-, hq⟩, hnull⟩ := hnull
        split at hnull
        · simp at hnull
        · simp only [eval_pure, Except.ok.injEq] at hnull
          rw [← hnull, hq]
      · simp only [eval_pure, Except.ok.injEq] at hnull
        rw [← hnull]
    rw [ih h, hp]
    simp

theorem eval_check_null_dummy_ok (h : eval answer (check_null_dummy env) m = .ok r) : r = ((), m) := by
  unfold check_null_dummy at h
  split at h
  · simp only [eval_bind_eq_ok, eval_top_ok] at h
    obtain ⟨p, ⟨-, hp⟩, h⟩ := h
    split at h
    · simp at h
    · simp only [eval_pure, Except.ok.injEq] at h
      rw [← h, hp]
  · simpa [eq_comm] using h

theorem performs_checkmultisig (hv : env.sigversion = .WitnessV0 ∨ env.sigversion = .Tapscript) (opcode : UInt8) :
    Performs answer (op_checkmultisig env opcode) (on_stack fun s t => ∃ vn vk n k ok,
      s[0]? = some vn ∧ IsNumber vn n ∧ s[(getint n).toNat + 1]? = some vk ∧ IsNumber vk k ∧
      (getint n).toNat + (getint k).toNat + 3 ≤ s.length ∧
      (ok = true → ∃ chosen : List Element, chosen.Sublist ((s.drop 1).take (getint n).toNat) ∧
        chosen.length = (getint k).toNat ∧ ∀ pubkey ∈ chosen, Signed answer env pubkey) ∧
      Leaves (opcode == OP_CHECKMULTISIGVERIFY) ok (s.drop ((getint n).toNat + (getint k).toNat + 3)) t) := by
  intro m m' h
  obtain hw | ht := hv
  · have hb : env.sigversion ≠ .Base := by simp [hw]
    simp only [op_checkmultisig, hw, reduceCtorEq, if_false, eval_bind_eq_ok, eval_require_ok, eval_number_ok] at h
    obtain ⟨_, ⟨-, rfl⟩, ⟨n, m₀⟩, ⟨vn, hvn, hn, hm₀⟩, h⟩ := h
    obtain rfl : m = m₀ := hm₀.symm
    split at h
    · simp at h
    simp only [eval_bind_eq_ok, eval_require_ok] at h
    obtain ⟨_, hcount, _, ⟨-, rfl⟩, ⟨k, m₁⟩, hk, h⟩ := h
    obtain ⟨op_count, rfl⟩ := eval_count_ops_ok hcount
    rw [Nat.add_comm 2, show (getint n).toNat + 2 = (getint n).toNat + 1 + 1 from rfl, eval_number_ok] at hk
    obtain ⟨vk, hvk, hk, hm₁⟩ := hk
    subst hm₁
    split at h
    · simp at h
    simp only [multisig_code, if_neg hb, eval_bind_eq_ok, eval_require_ok, eval_pop, eval_pure, Except.ok.injEq,
      exists_eq_left'] at h
    obtain ⟨_, ⟨hlen, rfl⟩, _, ⟨c, hcode, rfl⟩, ⟨ok, m₂⟩, hmatch, d, hargs, _, ⟨-, rfl⟩, e, hdummy, h⟩ := h
    obtain rfl := eval_script_code_ok hcode
    rw [show 3 + (getint n).toNat = (getint n).toNat + 2 + 1 by omega] at hmatch
    obtain ⟨hm₂, hsigned⟩ := eval_match_signatures_ok hw _ hmatch
    rw [hm₂] at hargs
    obtain rfl := eval_pop_arguments_ok hargs
    obtain rfl := eval_check_null_dummy_ok hdummy
    obtain ⟨t, rfl, ht⟩ := eval_push_verdict_ok h
    refine ⟨rfl, rfl, rfl, fun hz => ⟨rfl, vn, vk, n, k, ok, hvn, ⟨_, hn⟩, hvk, ⟨_, hk⟩, ?_, ?_, ?_⟩⟩
    · change _ ≤ m.stack.length
      omega
    · exact hsigned (by rw [show m.pbegincodehash = 0 from hz, List.drop_zero])
    · dsimp only at ht
      rw [List.tail_drop] at ht
      rwa [show (getint n).toNat + (getint k).toNat + 3 =
        3 + (getint n).toNat + (getint k).toNat - 1 + 1 by omega]
  · simp [op_checkmultisig, ht] at h

end AvilaNode.Interpreter
