import AvilaNode.ScriptNumbers
import AvilaNode.ScriptRuns

/-! What opcodes do to the stacks where they are executed, and that they do nothing where they are not. -/

namespace AvilaNode.Interpreter

open OraclePrograms Exec

abbrev View : Type := List Element × List Element

abbrev Effect : Type := View → View → Prop

def Machine.view (m : Machine) : View := (m.stack, m.altstack)

structure Live (m : Machine) : Prop where
  first_false : m.cond.first_false = ConditionStack.NO_FALSE
  size : m.cond.size ≤ ConditionStack.NO_FALSE
  code : m.pbegincodehash = 0

structure Dead (m : Machine) : Prop where
  first_false : m.cond.first_false < m.cond.size
  size : m.cond.size ≤ ConditionStack.NO_FALSE

structure Does (f : Effect) (m m' : Machine) : Prop where
  live : Live m → m'.cond = m.cond ∧ f m.view m'.view
  dead : Dead m → m'.cond = m.cond ∧ m'.view = m.view
  code : m'.pbegincodehash = m.pbegincodehash

namespace Effect

def seq (f g : Effect) : Effect := fun v w => ∃ u, f v u ∧ g u w

def on_stack (f : List Element → List Element → Prop) : Effect := fun v w => w.2 = v.2 ∧ f v.1 w.1

end Effect

open Effect

variable {m m' : Machine}

theorem Live.of_eq (h : Live m) (hc : m'.cond = m.cond) (hb : m'.pbegincodehash = m.pbegincodehash) : Live m' where
  first_false := by rw [hc]; exact h.first_false
  size := by rw [hc]; exact h.size
  code := by rw [hb]; exact h.code

theorem Dead.of_eq (h : Dead m) (hc : m'.cond = m.cond) : Dead m' where
  first_false := by rw [hc]; exact h.first_false
  size := by rw [hc]; exact h.size

theorem Dead.all_true (h : Dead m) : m.cond.all_true = false := by
  obtain ⟨hf, hs⟩ := h
  simp only [ConditionStack.all_true, beq_eq_false_iff_ne]
  omega

theorem Live.all_true (h : Live m) : m.cond.all_true = true := by simp [ConditionStack.all_true, h.first_false]

theorem Does.mono {f g : Effect} (h : Does f m m') (hfg : ∀ v w, f v w → g v w) : Does g m m' where
  live hl := ⟨(h.live hl).1, hfg _ _ (h.live hl).2⟩
  dead := h.dead
  code := h.code

theorem Does.seq {f g : Effect} {m₁ : Machine} (hf : Does f m m₁) (hg : Does g m₁ m') : Does (f.seq g) m m' where
  live hl := by
    obtain ⟨hc, he⟩ := hf.live hl
    obtain ⟨hc', he'⟩ := hg.live (hl.of_eq hc hf.code)
    exact ⟨hc'.trans hc, m₁.view, he, he'⟩
  dead hd := by
    obtain ⟨hc, he⟩ := hf.dead hd
    obtain ⟨hc', he'⟩ := hg.dead (hd.of_eq hc)
    exact ⟨hc'.trans hc, he'.trans he⟩
  code := hg.code.trans hf.code

variable {answer : (q : Query) → Answer q} {env : Env}

def Performs (answer : (q : Query) → Answer q) (p : Run Unit) (f : Effect) : Prop :=
  ∀ m m', eval answer p m = .ok ((), m') → m'.pc = m.pc ∧ m'.cond = m.cond ∧ m'.pbegincodehash = m.pbegincodehash ∧
    (m.pbegincodehash = 0 → f m.view m'.view)

theorem performs_dup : Performs answer op_dup (on_stack fun s t => ∃ v r, s = v :: r ∧ t = v :: v :: r) := by
  rintro ⟨_ | ⟨v, r⟩, alt, cond, n, c, e, pc, pos⟩ m' h
  · simp [op_dup, eval_bind_eq_ok, eval_require_ok] at h
  · simp [op_dup, eval_bind_eq_ok, eval_require_ok, eval_top_ok] at h
    subst h
    exact ⟨rfl, rfl, rfl, fun _ => ⟨rfl, v, r, rfl, rfl⟩⟩

theorem performs_swap :
    Performs answer op_swap (on_stack fun s t => ∃ v w r, s = v :: w :: r ∧ t = w :: v :: r) := by
  rintro ⟨_ | ⟨v, _ | ⟨w, r⟩⟩, alt, cond, n, c, e, pc, pos⟩ m' h
  · simp [op_swap, eval_bind_eq_ok, eval_require_ok] at h
  · simp [op_swap, eval_bind_eq_ok, eval_require_ok] at h
  · simp [op_swap, swap, eval_bind_eq_ok, eval_require_ok, eval_top_ok] at h
    subst h
    exact ⟨rfl, rfl, rfl, fun _ => ⟨rfl, v, w, r, rfl, rfl⟩⟩

theorem performs_toaltstack :
    Performs answer op_toaltstack fun v w => ∃ x r, v.1 = x :: r ∧ w = (r, x :: v.2) := by
  rintro ⟨_ | ⟨x, r⟩, alt, cond, n, c, e, pc, pos⟩ m' h
  · simp [op_toaltstack, eval_bind_eq_ok, eval_require_ok] at h
  · simp [op_toaltstack, eval_bind_eq_ok, eval_require_ok] at h
    subst h
    exact ⟨rfl, rfl, rfl, fun _ => ⟨x, r, rfl, rfl⟩⟩

theorem performs_fromaltstack :
    Performs answer op_fromaltstack fun v w => ∃ x r, v.2 = x :: r ∧ w = (x :: v.1, r) := by
  rintro ⟨s, _ | ⟨x, r⟩, cond, n, c, e, pc, pos⟩ m' h
  · simp [op_fromaltstack, eval_bind_eq_ok] at h
  · simp [op_fromaltstack, eval_bind_eq_ok] at h
    subst h
    exact ⟨rfl, rfl, rfl, fun _ => ⟨x, r, rfl, rfl⟩⟩

theorem performs_size : Performs answer op_size
    (on_stack fun s t => ∃ v r, s = v :: r ∧ t = encode_script_num v.length :: v :: r) := by
  rintro ⟨_ | ⟨v, r⟩, alt, cond, n, c, e, pc, pos⟩ m' h
  · simp [op_size, eval_bind_eq_ok, eval_require_ok] at h
  · simp [op_size, eval_bind_eq_ok, eval_require_ok, eval_top_ok] at h
    subst h
    exact ⟨rfl, rfl, rfl, fun _ => ⟨rfl, v, r, rfl, rfl⟩⟩

theorem performs_ifdup : Performs answer op_ifdup
    (on_stack fun s t => ∃ v r, s = v :: r ∧ t = if cast_to_bool v then v :: v :: r else v :: r) := by
  rintro ⟨_ | ⟨v, r⟩, alt, cond, n, c, e, pc, pos⟩ m' h
  · simp [op_ifdup, eval_bind_eq_ok, eval_require_ok] at h
  · cases hv : cast_to_bool v <;>
      simp [op_ifdup, eval_bind_eq_ok, eval_require_ok, eval_top_ok, hv] at h <;>
      subst h <;>
      exact ⟨rfl, rfl, rfl, fun _ => ⟨rfl, v, r, rfl, by simp [hv, Machine.view]⟩⟩

theorem performs_verify : Performs answer op_verify
    (on_stack fun s t => ∃ v r, s = v :: r ∧ cast_to_bool v = true ∧ t = r) := by
  rintro ⟨_ | ⟨v, r⟩, alt, cond, n, c, e, pc, pos⟩ m' h
  · simp [op_verify, eval_bind_eq_ok, eval_require_ok] at h
  · cases hv : cast_to_bool v with
    | false => simp [op_verify, eval_bind_eq_ok, eval_require_ok, eval_top_ok, hv] at h
    | true =>
      simp [op_verify, eval_bind_eq_ok, eval_require_ok, eval_top_ok, hv] at h
      subst h
      exact ⟨rfl, rfl, rfl, fun _ => ⟨rfl, v, r, rfl, hv, rfl⟩⟩

def Leaves (verify value : Bool) (rest t : List Element) : Prop :=
  if verify then value = true ∧ t = rest else t = bool_element value :: rest

theorem eval_push_verdict_ok {value verify : Bool} {e : ScriptError}
    (h : eval answer (push_verdict value verify e) m = .ok ((), m')) :
    ∃ t, m' = { m with stack := t } ∧ Leaves verify value m.stack t := by
  cases verify <;> cases value <;> simp [push_verdict, eval_bind_eq_ok] at h <;> subst h <;>
    exact ⟨_, rfl, by simp [Leaves]⟩

theorem performs_equal (opcode : UInt8) : Performs answer (op_equal opcode) (on_stack fun s t =>
    ∃ v w r, s = v :: w :: r ∧ Leaves (opcode == OP_EQUALVERIFY) (w == v) r t) := by
  rintro ⟨_ | ⟨v, _ | ⟨w, r⟩⟩, alt, cond, n, c, e, pc, pos⟩ m' h
  · simp [op_equal, eval_bind_eq_ok, eval_require_ok] at h
  · simp [op_equal, eval_bind_eq_ok, eval_require_ok] at h
  · simp [op_equal, eval_bind_eq_ok, eval_require_ok, eval_top_ok] at h
    obtain ⟨t, rfl, ht⟩ := eval_push_verdict_ok h
    exact ⟨rfl, rfl, rfl, fun _ => ⟨rfl, v, w, r, rfl, ht⟩⟩

def IsNumber (v : Element) (n : ℤ) : Prop := ∃ minimal, script_num v minimal MAX_SCRIPTNUM_SIZE = .ok n

@[simp] theorem encode_of_bool (b : Bool) : encode_script_num (of_bool b) = bool_element b := by cases b <;> rfl

@[simp] theorem cast_bool_element (b : Bool) : cast_to_bool (bool_element b) = b := by cases b <;> rfl

theorem performs_0notequal : Performs answer (op_unary env OP_0NOTEQUAL)
    (on_stack fun s t => ∃ v r n, s = v :: r ∧ IsNumber v n ∧ t = bool_element (n != 0) :: r) := by
  rintro ⟨_ | ⟨v, r⟩, alt, cond, n, c, e, pc, pos⟩ m' h
  · simp [op_unary, eval_bind_eq_ok, eval_require_ok] at h
  · have hunary (k : ℤ) : unary OP_0NOTEQUAL k = of_bool (k != 0) := rfl
    simp [op_unary, eval_bind_eq_ok, eval_require_ok, eval_number_ok, hunary] at h
    obtain ⟨k, hk, rfl⟩ := h
    exact ⟨rfl, rfl, rfl, fun _ => ⟨rfl, v, r, k, rfl, ⟨_, hk⟩, rfl⟩⟩

variable {opcode : UInt8}

theorem performs_binary (hop : opcode ≠ OP_NUMEQUALVERIFY) : Performs answer (op_binary env opcode)
    (on_stack fun s t => ∃ v w r n k, s = v :: w :: r ∧ IsNumber w n ∧ IsNumber v k ∧
      t = encode_script_num (binary opcode n k) :: r) := by
  rintro ⟨_ | ⟨v, _ | ⟨w, r⟩⟩, alt, cond, n, c, e, pc, pos⟩ m' h
  · simp [op_binary, eval_bind_eq_ok, eval_require_ok] at h
  · simp [op_binary, eval_bind_eq_ok, eval_require_ok] at h
  · simp [op_binary, eval_bind_eq_ok, eval_require_ok, eval_number_ok, hop] at h
    obtain ⟨n, hn, k, hk, rfl⟩ := h
    exact ⟨rfl, rfl, rfl, fun _ => ⟨rfl, v, w, r, n, k, rfl, ⟨_, hn⟩, ⟨_, hk⟩, rfl⟩⟩

theorem performs_numequalverify : Performs answer (op_binary env OP_NUMEQUALVERIFY)
    (on_stack fun s t => ∃ v w r n, s = v :: w :: r ∧ IsNumber w n ∧ IsNumber v n ∧ t = r) := by
  rintro ⟨_ | ⟨v, _ | ⟨w, r⟩⟩, alt, cond, n, c, e, pc, pos⟩ m' h
  · simp [op_binary, eval_bind_eq_ok, eval_require_ok] at h
  · simp [op_binary, eval_bind_eq_ok, eval_require_ok] at h
  · have hbinary (n k : ℤ) : binary OP_NUMEQUALVERIFY n k = of_bool (n == k) := rfl
    simp [op_binary, eval_bind_eq_ok, eval_require_ok, eval_number_ok, eval_top_ok, hbinary] at h
    obtain ⟨n, hn, k, hk, h⟩ := h
    by_cases he : n = k
    · simp [he] at h
      subst h he
      exact ⟨rfl, rfl, rfl, fun _ => ⟨rfl, v, w, r, n, rfl, ⟨_, hn⟩, ⟨_, hk⟩, rfl⟩⟩
    · simp [he] at h

def digest [Digests] (opcode : UInt8) (v : Element) : Element :=
  if opcode = OP_RIPEMD160 then Digests.ripemd160 v
  else if opcode = OP_SHA1 then Digests.sha1 v
  else if opcode = OP_SHA256 then Digests.sha256 v
  else if opcode = OP_HASH160 then Digests.ripemd160 (Digests.sha256 v)
  else Digests.sha256 (Digests.sha256 v)

theorem performs_hash [Digests] (opcode : UInt8) : Performs answer (op_hash opcode)
    (on_stack fun s t => ∃ v r, s = v :: r ∧ t = digest opcode v :: r) := by
  rintro ⟨_ | ⟨v, r⟩, alt, cond, n, c, e, pc, pos⟩ m' h
  · simp [op_hash, eval_bind_eq_ok, eval_require_ok] at h
  · simp [op_hash, eval_bind_eq_ok, eval_require_ok, eval_top_ok] at h
    subst h
    exact ⟨rfl, rfl, rfl, fun _ => ⟨rfl, v, r, rfl, rfl⟩⟩

theorem performs_small_number [Digests] (h : OP_1 ≤ opcode ∧ opcode ≤ OP_16) :
    Performs answer (eval_plain opcode)
      (on_stack fun s t => t = encode_script_num ((opcode.toNat : ℤ) - 0x50) :: s) := by
  rintro m m' hm
  simp only [eval_plain, h, and_self, or_true, if_true, eval_push, Except.ok.injEq, Prod.mk.injEq, true_and] at hm
  subst hm
  exact ⟨rfl, rfl, rfl, fun _ => ⟨rfl, rfl⟩⟩

theorem performs_checklocktimeverify : Performs answer (op_checklocktimeverify env) (on_stack fun s t => t = s ∧
    (env.has CHECKLOCKTIMEVERIFY = true → ∃ v r minimal n, s = v :: r ∧ script_num v minimal 5 = .ok n ∧
      answer (.check_locktime n) = true)) := by
  rintro ⟨s, alt, cond, n, c, e, pc, pos⟩ m' h
  cases hf : env.has CHECKLOCKTIMEVERIFY with
  | false =>
    simp [op_checklocktimeverify, hf] at h
    subst h
    exact ⟨rfl, rfl, rfl, fun _ => ⟨rfl, rfl, by simp⟩⟩
  | true =>
    cases s with
    | nil => simp [op_checklocktimeverify, hf, eval_bind_eq_ok, eval_require_ok] at h
    | cons v r =>
      simp [op_checklocktimeverify, hf, eval_bind_eq_ok, eval_require_ok, eval_number_ok] at h
      obtain ⟨k, hk, h⟩ := h
      split at h
      · simp at h
      rw [eval_bind_eq_ok] at h
      obtain ⟨p, hp, h⟩ := h
      obtain rfl := eval_ask_ok (.check_locktime k) hp
      cases ha : answer (.check_locktime k) with
      | false => simp [ha] at h
      | true =>
        simp [ha] at h
        subst h
        exact ⟨rfl, rfl, rfl, fun _ => ⟨rfl, rfl, fun _ => ⟨v, r, _, k, rfl, hk, ha⟩⟩⟩

theorem performs_checksequenceverify : Performs answer (op_checksequenceverify env) (on_stack fun s t => t = s ∧
    (env.has CHECKSEQUENCEVERIFY = true → ∃ v r minimal n, s = v :: r ∧ script_num v minimal 5 = .ok n ∧
      (n.toNat &&& SEQUENCE_LOCKTIME_DISABLE_FLAG = 0 → answer (.check_sequence n) = true))) := by
  rintro ⟨s, alt, cond, n, c, e, pc, pos⟩ m' h
  cases hf : env.has CHECKSEQUENCEVERIFY with
  | false =>
    simp [op_checksequenceverify, hf] at h
    subst h
    exact ⟨rfl, rfl, rfl, fun _ => ⟨rfl, rfl, by simp⟩⟩
  | true =>
    cases s with
    | nil => simp [op_checksequenceverify, hf, eval_bind_eq_ok, eval_require_ok] at h
    | cons v r =>
      simp only [op_checksequenceverify, hf, Bool.not_true, Bool.false_eq_true, if_false, eval_bind_eq_ok,
        eval_require_ok, eval_number_ok] at h
      obtain ⟨_, ⟨-, rfl⟩, ⟨k, m₁⟩, ⟨w, hw, hk, rfl⟩, h⟩ := h
      cases hw
      split at h
      · simp at h
      split at h
      · next hd =>
        simp only [eval_pure, Except.ok.injEq, Prod.mk.injEq, true_and] at h
        subst h
        exact ⟨rfl, rfl, rfl, fun _ => ⟨rfl, rfl, fun _ => ⟨v, r, _, k, rfl, hk, fun hz => absurd hz hd⟩⟩⟩
      · rw [eval_bind_eq_ok] at h
        obtain ⟨p, hp, h⟩ := h
        obtain rfl := eval_ask_ok (.check_sequence k) hp
        cases ha : answer (.check_sequence k) with
        | false => simp [ha] at h
        | true =>
          simp [ha] at h
          subst h
          exact ⟨rfl, rfl, rfl, fun _ => ⟨rfl, rfl, fun _ => ⟨v, r, _, k, rfl, hk, fun _ => ha⟩⟩⟩

section Code

variable [Digests]

def Codes (answer : (q : Query) → Answer q) (env : Env) (code : List UInt8) (f : Effect) : Prop :=
  Leads answer env code (Does f)

variable {f : Effect}

theorem Codes.mono {code : List UInt8} {g : Effect} (h : Codes answer env code f) (hfg : ∀ v w, f v w → g v w) :
    Codes answer env code g := Leads.mono h fun _ _ hd => hd.mono hfg

variable {c d : List UInt8}

theorem Codes.append {f g : Effect} (hc : Codes answer env c f) (hd : Codes answer env d g) :
    Codes answer env (c ++ d) (f.seq g) := by
  refine (Leads.append hc hd).mono ?_
  rintro m m' ⟨m₁, hf, hg⟩
  exact hf.seq hg

theorem Codes.weaken {f g : List Element → List Element → Prop} (hc : Codes answer env c (on_stack f))
    (hfg : ∀ s t, f s t → g s t) : Codes answer env c (on_stack g) :=
  hc.mono fun _ _ h => ⟨h.1, hfg _ _ h.2⟩

theorem Codes.nil : Codes answer env [] (on_stack fun s t => t = s) := by
  refine Leads.nil.mono ?_
  rintro m m' rfl
  exact ⟨fun _ => ⟨rfl, rfl, rfl⟩, fun _ => ⟨rfl, rfl⟩, rfl⟩

theorem Codes.andThen {f g : List Element → List Element → Prop} (hc : Codes answer env c (on_stack f))
    (hd : Codes answer env d (on_stack g)) :
    Codes answer env (c ++ d) (on_stack fun s t => ∃ u, f s u ∧ g u t) := by
  refine (hc.append hd).mono ?_
  rintro v w ⟨u, ⟨hu, hf⟩, hw, hg⟩
  exact ⟨hw.trans hu, u.1, hf, hg⟩

theorem Codes.instruction {code data : List UInt8} (hcode : 0 < code.length)
    (hop : ∀ rest, get_op (code ++ rest) 0 = (some (opcode, data), code.length))
    (hskip : ∀ m, eval answer (execute env opcode data false) m = .ok ((), m))
    (hp : Performs answer (execute env opcode data true) f) : Codes answer env code f := by
  refine (Leads.instruction hcode hop ?_).mono ?_
  · intro f_exec m m' h
    cases f_exec with
    | false =>
      rw [hskip, Except.ok.injEq, Prod.mk.injEq] at h
      rw [← h.2]
    | true => exact (hp m m' h).1
  · rintro m m' ⟨pc, op_count, m₁, h, rfl⟩
    cases ht : m.cond.all_true with
    | false =>
      rw [ht, hskip, Except.ok.injEq, Prod.mk.injEq] at h
      obtain ⟨-, rfl⟩ := h
      exact ⟨fun hl => absurd hl.all_true (by simp [ht]), fun _ => ⟨rfl, rfl⟩, rfl⟩
    | true =>
      rw [ht] at h
      obtain ⟨-, hc, hb, he⟩ := hp _ _ h
      exact ⟨fun hl => ⟨hc, he hl.code⟩, fun hd => absurd hd.all_true (by simp [ht]), hb⟩

theorem codes_op (h : OP_PUSHDATA4 < opcode) (hif : ¬(OP_IF ≤ opcode ∧ opcode ≤ OP_ENDIF))
    (hp : Performs answer (eval_op env opcode true) f) : Codes answer env [opcode] f := by
  have hn : ¬opcode ≤ OP_PUSHDATA4 := UInt8.not_le.mpr h
  refine Codes.instruction (by simp) (fun rest => get_op_cons h rest) ?_ ?_
  · intro m
    simp [execute, hif]
  · simpa [execute, hn] using hp

theorem codes_push {data : Element} (hd : data.length < 4294967296) :
    Codes answer env (push_slice data) (on_stack fun s t => t = data :: s) := by
  have hle := push_opcode_le data.length
  refine Codes.instruction (by rw [push_slice_eq]; simp) (fun rest => get_op_push_slice hd rest) ?_ ?_
  · intro m
    have hif : ¬(OP_IF ≤ push_opcode data.length ∧ push_opcode data.length ≤ OP_ENDIF) := fun h =>
      absurd (UInt8.le_trans h.1 hle) (by decide)
    simp [execute, hif]
  · intro m m' h
    simp only [execute, hle, and_self, if_true, eval_bind_eq_ok] at h
    obtain ⟨⟨_, m₁⟩, hmin, h⟩ := h
    have he : m₁ = m := by
      unfold check_minimal_data at hmin
      split at hmin
      · simp at hmin
      · simpa [eq_comm] using hmin
    subst he
    simp only [eval_push, Except.ok.injEq, Prod.mk.injEq, true_and] at h
    subst h
    exact ⟨rfl, rfl, rfl, fun _ => ⟨rfl, rfl⟩⟩

end Code

end AvilaNode.Interpreter
