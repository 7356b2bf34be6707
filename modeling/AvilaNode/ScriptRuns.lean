import AvilaNode.Interpreter

/-! A script one piece after another: what the machine does to its stacks over each piece. -/

namespace AvilaNode.Interpreter

open OraclePrograms Exec ByteStrings

variable {R S : Machine → Machine → Prop} {m' : Machine} (script : Script)

theorem push_size_drop (opcode : UInt8) (pc i : ℕ) : push_size script opcode (pc + i) =
    (push_size (script.drop pc) opcode i).map fun p => (p.1, pc + p.2) := by
  unfold push_size
  simp only [List.length_drop, List.drop_drop]
  split
  · rfl
  generalize hw : (if opcode = OP_PUSHDATA1 then 1 else if opcode = OP_PUSHDATA2 then 2 else 4) = width
  have h1 : 1 ≤ width := by
    rw [← hw]
    split
    · omega
    · split <;> omega
  by_cases hl : script.length < pc + i + width
  · rw [if_pos hl, if_pos (by omega)]
    rfl
  · rw [if_neg hl, if_neg (by omega)]
    simp only [Option.map_some, Nat.add_assoc]

theorem get_op_drop (pc : ℕ) : get_op script pc =
    ((get_op (script.drop pc) 0).1, pc + (get_op (script.drop pc) 0).2) := by
  unfold get_op
  rw [List.getElem?_drop, Nat.add_zero]
  cases script[pc]? with
  | none => rfl
  | some opcode =>
    dsimp only
    split
    · rfl
    rw [push_size_drop, Nat.zero_add]
    cases push_size (script.drop pc) opcode 1 with
    | none => rfl
    | some p =>
      simp only [Option.map_some, List.length_drop, List.drop_drop, Nat.sub_sub]
      split
      · rfl
      · simp only [Nat.add_assoc]

variable {opcode : UInt8} {data code : List UInt8} {n : ℕ} {m : Machine} {r : Unit × Machine}

theorem get_op_cons (h : OP_PUSHDATA4 < opcode) (rest : List UInt8) :
    get_op (opcode :: rest) 0 = (some (opcode, []), 1) := by
  simp [get_op, h]

def push_opcode (size : ℕ) : UInt8 :=
  if size = 0 then OP_0
  else if size ≤ MAX_DIRECT_PUSH.toNat then UInt8.ofNat size
  else if size ≤ 0xff then OP_PUSHDATA1
  else if size ≤ 0xffff then OP_PUSHDATA2
  else OP_PUSHDATA4

theorem push_opcode_le (size : ℕ) : push_opcode size ≤ OP_PUSHDATA4 := by
  unfold push_opcode
  split
  · decide
  split
  · next h =>
    have : size ≤ 75 := h
    rw [UInt8.le_iff_toNat_le, UInt8.toNat_ofNat', Nat.mod_eq_of_lt (by omega)]
    exact Nat.le_trans this (by decide)
  · split
    · decide
    · split <;> decide

def push_header (size : ℕ) : List UInt8 :=
  if size ≤ MAX_DIRECT_PUSH.toNat then []
  else if size ≤ 0xff then le 1 size
  else if size ≤ 0xffff then le 2 size
  else le 4 size

theorem push_slice_eq (data : List UInt8) :
    push_slice data = push_opcode data.length :: (push_header data.length ++ data) := by
  unfold push_slice push_opcode push_header
  dsimp only
  split
  · next h => rw [h, if_pos (by decide)]; rfl
  split
  · rfl
  · split
    · rfl
    · split <;> rfl

theorem push_size_slice (hd : data.length < 4294967296) (rest : List UInt8) :
    push_size (push_slice data ++ rest) (push_opcode data.length) 1 =
      some (data.length, 1 + (push_header data.length).length) := by
  have hcode : (push_slice data ++ rest).drop 1 = push_header data.length ++ (data ++ rest) := by
    rw [push_slice_eq]
    simp
  have hlen : (push_slice data ++ rest).length = 1 + (push_header data.length).length + (data ++ rest).length := by
    rw [push_slice_eq]
    simp only [List.cons_append, List.length_cons, List.length_append]
    omega
  unfold push_size
  rw [hcode, hlen]
  unfold push_opcode push_header
  split
  · next h => simp [h, show OP_0 < OP_PUSHDATA1 from by decide, show OP_0.toNat = 0 from rfl]
  split
  · next h =>
    have h75 : data.length ≤ 75 := h
    have hn : (UInt8.ofNat data.length).toNat = data.length := by
      rw [UInt8.toNat_ofNat', Nat.mod_eq_of_lt (by omega)]
    rw [if_pos (UInt8.lt_iff_toNat_lt.mpr (by rw [hn]; exact Nat.lt_of_le_of_lt h75 (by decide))), hn]
    simp
  · split
    · next h =>
      rw [if_neg (by decide)]
      simp only [if_pos, length_le]
      rw [if_neg (by omega), List.take_left' (length_le 1 _), value_le (by omega)]
    · split
      · next h =>
        rw [if_neg (by decide)]
        simp only [show OP_PUSHDATA2 ≠ OP_PUSHDATA1 from by decide, if_false, if_pos, length_le]
        rw [if_neg (by omega), List.take_left' (length_le 2 _), value_le (by omega)]
      · rw [if_neg (by decide)]
        simp only [show OP_PUSHDATA4 ≠ OP_PUSHDATA1 from by decide, show OP_PUSHDATA4 ≠ OP_PUSHDATA2 from by decide,
          if_false, length_le]
        rw [if_neg (by omega), List.take_left' (length_le 4 _), value_le (by omega)]

theorem get_op_push_slice (hd : data.length < 4294967296) (rest : List UInt8) :
    get_op (push_slice data ++ rest) 0 = (some (push_opcode data.length, data), (push_slice data).length) := by
  have hsize := push_size_slice hd rest
  have hlen : (push_slice data).length = 1 + (push_header data.length).length + data.length := by
    rw [push_slice_eq]
    simp only [List.length_cons, List.length_append]
    omega
  have hdrop : (push_slice data ++ rest).drop (1 + (push_header data.length).length) = data ++ rest := by
    rw [push_slice_eq, List.cons_append, Nat.add_comm, List.drop_succ_cons, List.append_assoc, List.drop_left]
  unfold get_op
  have hhead : (push_slice data ++ rest)[0]? = some (push_opcode data.length) := by
    rw [push_slice_eq]
    rfl
  rw [hhead]
  dsimp only
  rw [if_neg (UInt8.not_lt.mpr (push_opcode_le _)), Nat.zero_add, hsize]
  dsimp only
  rw [List.length_append, if_neg (by omega), hdrop, List.take_left, hlen]

def turn [Digests] (env : Env) (opcode : UInt8) (data : Element) (pc : ℕ) : Run Unit := do
  let m ← Exec.get
  if MAX_SCRIPT_ELEMENT_SIZE < data.length then fail .PushSize
  else do
    Exec.modify fun m => { m with pc }
    count_opcode env opcode
    check_banned env opcode
    execute env opcode data m.cond.all_true
    check_stack_size
    next_opcode

variable {answer : (q : Query) → Answer q} {env : Env}

@[simp] theorem eval_get {S : Type} (s : S) : eval answer (get : Exec Answer S Halt S) s = .ok (s, s) := rfl

@[simp] theorem eval_modify {S : Type} (f : S → S) (s : S) :
    eval answer (modify f : Exec Answer S Halt Unit) s = .ok ((), f s) := rfl

@[simp] theorem eval_fail {S α : Type} (e : ScriptError) (s : S) :
    eval answer (fail e : Exec Answer S Halt α) s = .error (.error e) := rfl

@[simp] theorem eval_panics {S α : Type} (s : S) :
    eval answer (panics : Exec Answer S Halt α) s = .error .panic := rfl

theorem eval_ask_ok {S : Type} (q : Query) {s : S} {r : Answer q × S}
    (h : eval answer (ask q : Exec Answer S Halt (Answer q)) s = .ok r) : r = (answer q, s) :=
  (Except.ok.inj h).symm

@[simp] theorem eval_push (v : Element) (m : Machine) :
    eval answer (push v) m = .ok ((), { m with stack := v :: m.stack }) := rfl

@[simp] theorem eval_pop (m : Machine) : eval answer pop m = .ok ((), { m with stack := m.stack.tail }) := rfl

theorem eval_require_ok {e : ScriptError} :
    eval answer (require n e) m = .ok r ↔ n ≤ m.stack.length ∧ r = ((), m) := by
  simp only [require, eval_bind_eq_ok, eval_get, Except.ok.injEq, exists_eq_left']
  split
  · next h => simp [Nat.not_le.mpr h]
  · next h => simp [Nat.not_lt.mp h, eq_comm]

theorem eval_top_ok {r : Element × Machine} :
    eval answer (top (n + 1)) m = .ok r ↔ m.stack[n]? = some r.1 ∧ r.2 = m := by
  obtain ⟨v, m'⟩ := r
  simp only [top, eval_bind_eq_ok, eval_get, Except.ok.injEq, exists_eq_left', Nat.add_sub_cancel]
  cases m.stack[n]? with
  | none => simp
  | some w => simp [eq_comm]

theorem eval_attempt_ok {S α : Type} {x : Except ScriptError α} {s : S} {r : α × S} :
    eval answer (attempt x : Exec Answer S Halt α) s = .ok r ↔ x = .ok r.1 ∧ r.2 = s := by
  obtain ⟨a, t⟩ := r
  cases x with
  | error e => simp [attempt, Except.mapError, Exec.lift]
  | ok b =>
    change Except.ok (b, s) = Except.ok (a, t) ↔ _
    simp [eq_comm]

theorem eval_number_ok {size : ℕ} {r : ℤ × Machine} : eval answer (number env (n + 1) size) m = .ok r ↔
      ∃ v, m.stack[n]? = some v ∧ script_num v (env.has MINIMALDATA) size = .ok r.1 ∧ r.2 = m := by
  simp only [number, eval_bind_eq_ok, eval_top_ok, eval_attempt_ok]
  constructor
  · rintro ⟨⟨v, m'⟩, ⟨hv, rfl⟩, hn, hr⟩
    exact ⟨v, hv, hn, hr⟩
  · rintro ⟨v, hv, hn, hr⟩
    exact ⟨(v, m), ⟨hv, rfl⟩, hn, hr⟩

theorem eval_checked_ok {v : ℤ} {r : ℤ × Machine} (h : eval answer (checked v) m = .ok r) : r = (v, m) := by
  unfold checked at h
  split at h
  · simpa [eq_comm] using h
  · simp at h

theorem eval_count_ops_ok {n : ℤ} (h : eval answer (count_ops n) m = .ok r) :
    ∃ op_count, r = ((), { m with op_count }) := by
  simp only [count_ops, eval_bind_eq_ok, eval_get, Except.ok.injEq, exists_eq_left'] at h
  obtain ⟨p, hp, h⟩ := h
  cases eval_checked_ok hp
  simp only [eval_modify, Except.ok.injEq, exists_eq_left'] at h
  split at h
  · simp at h
  · simp only [eval_pure, Except.ok.injEq] at h
    exact ⟨_, h.symm⟩

theorem eval_count_opcode_ok (h : eval answer (count_opcode env opcode) m = .ok r) : ∃ op_count,
    r = ((), { m with op_count }) := by
  unfold count_opcode at h
  split at h
  · exact eval_count_ops_ok h
  · simp only [eval_pure, Except.ok.injEq] at h
    exact ⟨m.op_count, h.symm⟩

theorem eval_check_banned_ok (h : eval answer (check_banned env opcode) m = .ok r) : r = ((), m) := by
  unfold check_banned at h
  split at h
  · simp at h
  · split at h
    · simp at h
    · simpa [eq_comm] using h

theorem eval_check_stack_size_ok (h : eval answer check_stack_size m = .ok r) : r = ((), m) := by
  simp only [check_stack_size, eval_bind_eq_ok, eval_get, Except.ok.injEq, exists_eq_left'] at h
  split at h
  · simp at h
  · simpa [eq_comm] using h

theorem eval_next_opcode_ok (h : eval answer next_opcode m = .ok r) :
    r = ((), { m with opcode_pos := m.opcode_pos + 1 }) := by
  simp only [next_opcode, eval_bind_eq_ok, eval_get, Except.ok.injEq, exists_eq_left'] at h
  split at h
  · simp at h
  · simpa [eq_comm] using h

variable [Digests]

theorem eval_turn_ok {data : Element} {pc : ℕ} (h : eval answer (turn env opcode data pc) m = .ok ((), m')) :
    ∃ op_count m₁, eval answer (execute env opcode data m.cond.all_true) { m with pc, op_count } = .ok ((), m₁) ∧
      m' = { m₁ with opcode_pos := m₁.opcode_pos + 1 } := by
  simp only [turn, eval_bind_eq_ok, eval_get, Except.ok.injEq, exists_eq_left'] at h
  split at h
  · simp at h
  simp only [eval_bind_eq_ok, eval_modify, Except.ok.injEq, exists_eq_left'] at h
  obtain ⟨p, hcount, q, hbanned, ⟨_, m₁⟩, hexecute, r, hsize, hnext⟩ := h
  obtain ⟨op_count, rfl⟩ := eval_count_opcode_ok hcount
  cases eval_check_banned_ok hbanned
  cases eval_check_stack_size_ok hsize
  cases eval_next_opcode_ok hnext
  exact ⟨op_count, m₁, hexecute, rfl⟩

def Ends (answer : (q : Query) → Answer q) (env : Env) (code : List UInt8) (m m' : Machine) : Prop :=
  env.script.drop m.pc = code ∧ ∃ fuel, code.length ≤ fuel ∧ eval answer (eval_loop env fuel) m = .ok ((), m')

theorem Ends.nil (h : Ends answer env [] m m') : m' = m := by
  obtain ⟨hcode, fuel, -, h⟩ := h
  have hpc : ¬m.pc < env.script.length := Nat.not_lt.mpr (List.drop_eq_nil_iff.mp hcode)
  cases fuel with
  | zero => simpa [eval_loop, eq_comm] using h
  | succ fuel => simpa [eval_loop, eval_bind, hpc, eq_comm] using h

theorem Ends.turn {rest : List UInt8} {size : ℕ} (h : Ends answer env code m m')
    (hop : get_op code 0 = (some (opcode, data), size)) (hsize : 0 < size) (hrest : code.drop size = rest) :
    ∃ m₁, eval answer (turn env opcode data (m.pc + size)) m = .ok ((), m₁) ∧
      (m₁.pc = m.pc + size → Ends answer env rest m₁ m') := by
  obtain ⟨hcode, fuel, hfuel, h⟩ := h
  have hne : code ≠ [] := by
    rintro rfl
    simp [get_op] at hop
  have hlen : 0 < code.length := List.length_pos_iff.mpr hne
  have hpc : m.pc < env.script.length := by
    rw [← hcode, List.length_drop] at hlen
    omega
  obtain ⟨fuel, rfl⟩ : ∃ n, fuel = n + 1 := ⟨fuel - 1, by omega⟩
  simp only [eval_loop, eval_bind_eq_ok, eval_get, Except.ok.injEq, exists_eq_left', if_pos hpc] at h
  obtain ⟨⟨_, m₁⟩, hstep, hloop⟩ := h
  refine ⟨m₁, ?_, fun hpc' => ⟨?_, fuel, ?_, hloop⟩⟩
  · rw [← hstep]
    simp only [eval_step, Interpreter.turn, eval_bind, eval_get]
    rw [get_op_drop, hcode, hop]
  · rw [hpc', ← List.drop_drop, hcode, hrest]
  · rw [← hrest, List.length_drop]
    omega

def Leads (answer : (q : Query) → Answer q) (env : Env) (code : List UInt8) (R : Machine → Machine → Prop) : Prop :=
  ∀ rest m m', Ends answer env (code ++ rest) m m' → ∃ m₁, R m m₁ ∧ Ends answer env rest m₁ m'

theorem Leads.mono (h : Leads answer env code R) (hs : ∀ m m', R m m' → S m m') :
    Leads answer env code S := by
  intro rest m m' he
  obtain ⟨m₁, hr, he⟩ := h rest m m' he
  exact ⟨m₁, hs _ _ hr, he⟩

theorem Leads.nil : Leads answer env [] fun m m' => m' = m := fun _ m _ h => ⟨m, rfl, h⟩

theorem Leads.append {c d : List UInt8} (hc : Leads answer env c R) (hd : Leads answer env d S) :
    Leads answer env (c ++ d) fun m m' => ∃ m₁, R m m₁ ∧ S m₁ m' := by
  intro rest m m' he
  rw [List.append_assoc] at he
  obtain ⟨m₁, hr, he⟩ := hc _ m m' he
  obtain ⟨m₂, hs, he⟩ := hd _ m₁ m' he
  exact ⟨m₂, ⟨m₁, hr, hs⟩, he⟩

theorem Leads.instruction (hcode : 0 < code.length)
    (hop : ∀ rest, get_op (code ++ rest) 0 = (some (opcode, data), code.length))
    (hpc : ∀ f_exec m m', eval answer (execute env opcode data f_exec) m = .ok ((), m') → m'.pc = m.pc) :
    Leads answer env code fun m m' => ∃ pc op_count m₁,
      eval answer (execute env opcode data m.cond.all_true) { m with pc, op_count } = .ok ((), m₁) ∧
        m' = { m₁ with opcode_pos := m₁.opcode_pos + 1 } := by
  intro rest m m' he
  obtain ⟨m₁, hturn, he⟩ := he.turn (hop rest) hcode List.drop_left
  obtain ⟨op_count, m₂, hexecute, rfl⟩ := eval_turn_ok hturn
  exact ⟨_, ⟨m.pc + code.length, op_count, m₂, hexecute, rfl⟩, he (hpc _ _ _ hexecute)⟩

end AvilaNode.Interpreter
