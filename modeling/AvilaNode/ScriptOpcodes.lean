import AvilaNode.SignatureEffects

/-! Single opcodes as pieces of code. -/

namespace AvilaNode.Interpreter

open OraclePrograms Effect

variable [Digests] {answer : (q : Query) → Answer q} {env : Env}

theorem codes_dup : Codes answer env [OP_DUP] (on_stack fun s t => ∃ v r, s = v :: r ∧ t = v :: v :: r) :=
  codes_op (by decide) (by decide) performs_dup

theorem codes_swap : Codes answer env [OP_SWAP] (on_stack fun s t => ∃ v w r, s = v :: w :: r ∧ t = w :: v :: r) :=
  codes_op (by decide) (by decide) performs_swap

theorem codes_size : Codes answer env [OP_SIZE]
    (on_stack fun s t => ∃ v r, s = v :: r ∧ t = encode_script_num v.length :: v :: r) :=
  codes_op (by decide) (by decide) performs_size

theorem codes_ifdup : Codes answer env [OP_IFDUP]
    (on_stack fun s t => ∃ v r, s = v :: r ∧ t = if cast_to_bool v then v :: v :: r else v :: r) :=
  codes_op (by decide) (by decide) performs_ifdup

theorem codes_verify : Codes answer env [OP_VERIFY]
    (on_stack fun s t => ∃ v r, s = v :: r ∧ cast_to_bool v = true ∧ t = r) :=
  codes_op (by decide) (by decide) performs_verify

theorem codes_0notequal : Codes answer env [OP_0NOTEQUAL]
    (on_stack fun s t => ∃ v r n, s = v :: r ∧ IsNumber v n ∧ t = bool_element (n != 0) :: r) :=
  codes_op (by decide) (by decide) performs_0notequal

theorem codes_equal (verify : Bool) : Codes answer env [if verify then OP_EQUALVERIFY else OP_EQUAL]
    (on_stack fun s t => ∃ v w r, s = v :: w :: r ∧ Leaves verify (w == v) r t) := by
  cases verify
  · exact codes_op (by decide) (by decide) (performs_equal OP_EQUAL)
  · exact codes_op (by decide) (by decide) (performs_equal OP_EQUALVERIFY)

theorem codes_booland :
    Codes answer env [OP_BOOLAND] (on_stack fun s t => ∃ v w r n k, s = v :: w :: r ∧ IsNumber w n ∧
    IsNumber v k ∧ t = bool_element (n != 0 && k != 0) :: r) := by
  refine (codes_op (by decide) (by decide) (performs_binary (by decide : OP_BOOLAND ≠ OP_NUMEQUALVERIFY))).mono ?_
  rintro v w ⟨hw, a, b, r, n, k, hs, hn, hk, ht⟩
  exact ⟨hw, a, b, r, n, k, hs, hn, hk, by rw [ht, ← encode_of_bool]; rfl⟩

theorem codes_boolor : Codes answer env [OP_BOOLOR] (on_stack fun s t => ∃ v w r n k, s = v :: w :: r ∧ IsNumber w n ∧
    IsNumber v k ∧ t = bool_element (n != 0 || k != 0) :: r) := by
  refine (codes_op (by decide) (by decide) (performs_binary (by decide : OP_BOOLOR ≠ OP_NUMEQUALVERIFY))).mono ?_
  rintro v w ⟨hw, a, b, r, n, k, hs, hn, hk, ht⟩
  exact ⟨hw, a, b, r, n, k, hs, hn, hk, by rw [ht, ← encode_of_bool]; rfl⟩

theorem codes_add : Codes answer env [OP_ADD] (on_stack fun s t => ∃ v w r n k, s = v :: w :: r ∧ IsNumber w n ∧
    IsNumber v k ∧ t = encode_script_num (wrapping (n + k)) :: r) :=
  codes_op (by decide) (by decide) (performs_binary (by decide : OP_ADD ≠ OP_NUMEQUALVERIFY))

theorem codes_numequal (verify : Bool) : Codes answer env [if verify then OP_NUMEQUALVERIFY else OP_NUMEQUAL]
    (on_stack fun s t => ∃ v w r n k, s = v :: w :: r ∧ IsNumber w n ∧ IsNumber v k ∧
      Leaves verify (n == k) r t) := by
  cases verify
  · refine (codes_op (by decide) (by decide) (performs_binary (by decide : OP_NUMEQUAL ≠ OP_NUMEQUALVERIFY))).mono ?_
    rintro v w ⟨hw, a, b, r, n, k, hs, hn, hk, ht⟩
    refine ⟨hw, a, b, r, n, k, hs, hn, hk, ?_⟩
    rw [ht, show binary OP_NUMEQUAL n k = of_bool (n == k) from rfl, encode_of_bool]
    rfl
  · refine (codes_op (by decide) (by decide) performs_numequalverify).mono ?_
    rintro v w ⟨hw, a, b, r, n, hs, hn, hk, ht⟩
    exact ⟨hw, a, b, r, n, n, hs, hn, hk, beq_self_eq_true n, ht⟩

theorem codes_hash {opcode : UInt8} (h : opcode = OP_SHA256 ∨ opcode = OP_RIPEMD160 ∨ opcode = OP_HASH256 ∨
    opcode = OP_HASH160) :
    Codes answer env [opcode] (on_stack fun s t => ∃ v r, s = v :: r ∧ t = digest opcode v :: r) := by
  rcases h with rfl | rfl | rfl | rfl <;> exact codes_op (by decide) (by decide) (performs_hash _)

theorem codes_small_number {opcode : UInt8} (h : OP_1 ≤ opcode ∧ opcode ≤ OP_16) : Codes answer env [opcode]
    (on_stack fun s t => t = encode_script_num ((opcode.toNat : ℤ) - 0x50) :: s) := by
  have hlt : OP_PUSHDATA4 < opcode := UInt8.lt_of_lt_of_le (by decide) h.1
  refine codes_op hlt (fun hif => absurd (UInt8.le_trans hif.1 h.2) (by decide)) ?_
  have heval : eval_op env opcode true = eval_plain opcode := by
    have hall : ∀ op : UInt8, OP_1 ≤ op → op ≤ OP_16 →
        op ∉ [OP_CHECKLOCKTIMEVERIFY, OP_CHECKSEQUENCEVERIFY, OP_NOP1, OP_IF, OP_NOTIF, OP_PICK, OP_ROLL, OP_1ADD,
          OP_1SUB, OP_NEGATE, OP_ABS, OP_NOT, OP_0NOTEQUAL, OP_ADD, OP_SUB, OP_BOOLAND, OP_BOOLOR, OP_NUMEQUAL,
          OP_NUMEQUALVERIFY, OP_NUMNOTEQUAL, OP_LESSTHAN, OP_GREATERTHAN, OP_LESSTHANOREQUAL, OP_GREATERTHANOREQUAL,
          OP_MIN, OP_MAX, OP_WITHIN, OP_CHECKSIG, OP_CHECKSIGVERIFY, OP_CHECKSIGADD, OP_CHECKMULTISIG,
          OP_CHECKMULTISIGVERIFY] ∧ ¬OP_NOP4 ≤ op := forall_byte (by decide +kernel)
    have hop := hall opcode h.1 h.2
    simp only [List.mem_cons, List.not_mem_nil, or_false, not_or] at hop
    simp [eval_op, hop]
  rw [heval]
  exact performs_small_number h

theorem codes_toaltstack : Codes answer env [OP_TOALTSTACK] fun v w => ∃ x r, v.1 = x :: r ∧ w = (r, x :: v.2) :=
  codes_op (by decide) (by decide) performs_toaltstack

theorem codes_fromaltstack : Codes answer env [OP_FROMALTSTACK] fun v w => ∃ x r, v.2 = x :: r ∧ w = (x :: v.1, r) :=
  codes_op (by decide) (by decide) performs_fromaltstack

theorem codes_checklocktimeverify : Codes answer env [OP_CHECKLOCKTIMEVERIFY] (on_stack fun s t => t = s ∧
    (env.has CHECKLOCKTIMEVERIFY = true → ∃ v r minimal n, s = v :: r ∧ script_num v minimal 5 = .ok n ∧
      answer (.check_locktime n) = true)) :=
  codes_op (by decide) (by decide) performs_checklocktimeverify

theorem codes_checksequenceverify : Codes answer env [OP_CHECKSEQUENCEVERIFY] (on_stack fun s t => t = s ∧
    (env.has CHECKSEQUENCEVERIFY = true → ∃ v r minimal n, s = v :: r ∧ script_num v minimal 5 = .ok n ∧
      (n.toNat &&& SEQUENCE_LOCKTIME_DISABLE_FLAG = 0 → answer (.check_sequence n) = true))) :=
  codes_op (by decide) (by decide) performs_checksequenceverify

theorem codes_checksig (hb : env.sigversion ≠ .Base) (verify : Bool) :
    Codes answer env [if verify then OP_CHECKSIGVERIFY else OP_CHECKSIG] (on_stack fun s t =>
      ∃ pubkey sig r ok, s = pubkey :: sig :: r ∧ (ok = true → Accepts answer env sig pubkey) ∧
        Leaves verify ok r t) := by
  cases verify
  · exact codes_op (by decide) (by decide) (performs_checksig hb OP_CHECKSIG)
  · exact codes_op (by decide) (by decide) (performs_checksig hb OP_CHECKSIGVERIFY)

theorem codes_checksigadd (hb : env.sigversion ≠ .Base) : Codes answer env [OP_CHECKSIGADD]
    (on_stack fun s t => ∃ pubkey v sig r n ok, s = pubkey :: v :: sig :: r ∧ IsNumber v n ∧
      (ok = true → Accepts answer env sig pubkey) ∧ t = encode_script_num (n + of_bool ok) :: r) :=
  codes_op (by decide) (by decide) (performs_checksigadd hb)

theorem codes_checkmultisig (hv : env.sigversion = .WitnessV0 ∨ env.sigversion = .Tapscript) (verify : Bool) :
    Codes answer env [if verify then OP_CHECKMULTISIGVERIFY else OP_CHECKMULTISIG] (on_stack fun s t =>
      ∃ vn vk n k ok, s[0]? = some vn ∧ IsNumber vn n ∧ s[(getint n).toNat + 1]? = some vk ∧ IsNumber vk k ∧
      (getint n).toNat + (getint k).toNat + 3 ≤ s.length ∧
      (ok = true → ∃ chosen : List Element, chosen.Sublist ((s.drop 1).take (getint n).toNat) ∧
        chosen.length = (getint k).toNat ∧ ∀ pubkey ∈ chosen, Signed answer env pubkey) ∧
      Leaves verify ok (s.drop ((getint n).toNat + (getint k).toNat + 3)) t) := by
  cases verify
  · exact codes_op (by decide) (by decide) (performs_checkmultisig hv OP_CHECKMULTISIG)
  · exact codes_op (by decide) (by decide) (performs_checkmultisig hv OP_CHECKMULTISIGVERIFY)

end AvilaNode.Interpreter
