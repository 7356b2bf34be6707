import AvilaNode.ScriptEffects

/-! Conditionals: the branch that is taken has its effect, and the other has none. -/

namespace AvilaNode.Interpreter

open OraclePrograms Exec Effect

namespace ConditionStack

def branch (c : ConditionStack) (taken : Bool) : ConditionStack := ⟨c.size + 1, if taken then NO_FALSE else c.size⟩

def nested (c : ConditionStack) : ConditionStack := ⟨c.size + 1, c.first_false⟩

variable {c : ConditionStack}

variable {c' : ConditionStack}

theorem push_true {taken : Bool} (h : c.push taken = some c') (hf : c.first_false = NO_FALSE) (hs : c.size ≤ NO_FALSE) :
    c' = c.branch taken ∧ c.size < NO_FALSE := by
  unfold push at h
  dsimp only at h
  split at h
  · cases h
  · next hn =>
    refine ⟨?_, by omega⟩
    cases taken <;> simpa [branch, hf, eq_comm] using h

theorem push_nested (h : c.push false = some c') (hf : c.first_false < c.size) (hs : c.size ≤ NO_FALSE) :
    c' = c.nested ∧ c.size < NO_FALSE := by
  unfold push at h
  dsimp only at h
  split at h
  · cases h
  · next hn =>
    refine ⟨?_, by omega⟩
    rw [if_neg (by omega)] at h
    exact (Option.some.inj h).symm

theorem toggle_branch (hs : c.size < NO_FALSE) (taken : Bool) :
    (c.branch taken).toggle_top = some (c.branch !taken) := by
  cases taken
  · simp [toggle_top, branch, hs.ne]
  · simp [toggle_top, branch]

theorem pop_branch (hf : c.first_false = NO_FALSE) (taken : Bool) : (c.branch taken).pop = some c := by
  cases taken <;> simp [pop, branch, ← hf]

theorem toggle_nested (hf : c.first_false < c.size) (hs : c.size < NO_FALSE) :
    c.nested.toggle_top = some c.nested := by
  have hne : c.first_false ≠ NO_FALSE := by omega
  simp [toggle_top, nested, hf.ne, hne]

theorem pop_nested (hf : c.first_false < c.size) : c.nested.pop = some c := by
  simp [pop, nested, hf.ne]

end ConditionStack

open ConditionStack

variable {answer : (q : Query) → Answer q} {env : Env}

variable {m m' : Machine} {opcode : UInt8}

theorem eval_set_cond_ok {cond : Option ConditionStack} (h : eval answer (set_cond cond) m = .ok ((), m')) : ∃ c,
    cond = some c ∧ m' = { m with cond := c } := by
  cases cond with
  | none => simp [set_cond] at h
  | some c => exact ⟨c, rfl, by simpa [set_cond, eq_comm] using h⟩

theorem eval_check_minimal_if_ok {vch : Element} {r : Unit × Machine}
    (h : eval answer (check_minimal_if env vch) m = .ok r) :
    r = ((), m) ∧ (env.sigversion = .Tapscript → not_minimal_if vch = false) := by
  unfold check_minimal_if at h
  split at h
  · simp at h
  · next hn =>
    refine ⟨?_, fun ht => by simpa [ht] using hn⟩
    split at h
    · simp at h
    · simpa [eq_comm] using h

theorem eval_op_if_live (h : eval answer (op_if env opcode true) m = .ok ((), m')) : ∃ x r c, m.stack = x :: r ∧
      (env.sigversion = .Tapscript → not_minimal_if x = false) ∧
      m.cond.push (cast_to_bool x != (opcode == OP_NOTIF)) = some c ∧ m' = { m with stack := r, cond := c } := by
  obtain ⟨_ | ⟨x, r⟩, alt, cond, n, b, e, pc, pos⟩ := m
  · simp [op_if, eval_bind_eq_ok, eval_require_ok] at h
  simp only [op_if, if_true, push_cond, eval_bind_eq_ok, eval_require_ok, eval_top_ok, eval_pop, eval_get,
    Except.ok.injEq, exists_eq_left'] at h
  obtain ⟨_, ⟨-, rfl⟩, ⟨y, _⟩, ⟨hy, rfl⟩, p, hmin, h⟩ := h
  obtain rfl : x = y := Option.some.inj hy
  obtain ⟨rfl, hminimal⟩ := eval_check_minimal_if_ok hmin
  obtain ⟨c, hc, rfl⟩ := eval_set_cond_ok h
  exact ⟨x, r, c, rfl, hminimal, hc, rfl⟩

theorem eval_op_if_dead (h : eval answer (op_if env opcode false) m = .ok ((), m')) :
    ∃ c, m.cond.push false = some c ∧ m' = { m with cond := c } := by
  simp only [op_if, Bool.false_eq_true, if_false, push_cond, eval_bind_eq_ok, eval_get, Except.ok.injEq,
    exists_eq_left'] at h
  exact eval_set_cond_ok h

theorem eval_op_else_ok (h : eval answer op_else m = .ok ((), m')) :
    ∃ c, m.cond.toggle_top = some c ∧ m' = { m with cond := c } := by
  simp only [op_else, eval_bind_eq_ok, eval_get, Except.ok.injEq, exists_eq_left'] at h
  split at h
  · simp at h
  · exact eval_set_cond_ok h

theorem eval_op_endif_ok (h : eval answer op_endif m = .ok ((), m')) :
    ∃ c, m.cond.pop = some c ∧ m' = { m with cond := c } := by
  simp only [op_endif, eval_bind_eq_ok, eval_get, Except.ok.injEq, exists_eq_left'] at h
  split at h
  · simp at h
  · exact eval_set_cond_ok h

structure Turns (f : ConditionStack → Option ConditionStack) (m m' : Machine) : Prop where
  cond : f m.cond = some m'.cond
  view : m'.view = m.view
  code : m'.pbegincodehash = m.pbegincodehash

structure Opens (env : Env) (opcode : UInt8) (m m' : Machine) : Prop where
  live : Live m → ∃ x r, m.stack = x :: r ∧ (env.sigversion = .Tapscript → not_minimal_if x = false) ∧
    m.cond.push (cast_to_bool x != (opcode == OP_NOTIF)) = some m'.cond ∧ m'.view = (r, m.altstack)
  dead : Dead m → m.cond.push false = some m'.cond ∧ m'.view = m.view
  code : m'.pbegincodehash = m.pbegincodehash

theorem Does.in_branch {m₁ m₂ : Machine} {f : Effect} {c : ConditionStack} {taken : Bool} (h : Does f m₁ m₂)
    (hbranch : m₁.cond = c.branch taken) (hlt : c.size < NO_FALSE) (hcode : m₁.pbegincodehash = 0) :
    m₂.cond = c.branch taken ∧ if taken then f m₁.view m₂.view else m₂.view = m₁.view := by
  rw [← hbranch]
  cases taken with
  | true =>
    have hlive : Live m₁ := ⟨by rw [hbranch]; rfl, by rw [hbranch]; exact hlt, hcode⟩
    exact h.live hlive
  | false =>
    have hdead : Dead m₁ := ⟨by rw [hbranch]; exact Nat.lt_succ_self _, by rw [hbranch]; exact hlt⟩
    exact h.dead hdead

theorem Does.in_nested {m₁ m₂ : Machine} {f : Effect} {c : ConditionStack} (h : Does f m₁ m₂)
    (hnested : m₁.cond = c.nested) (hf : c.first_false < c.size) (hlt : c.size < NO_FALSE) :
    m₂.cond = c.nested ∧ m₂.view = m₁.view := by
  rw [← hnested]
  have hdead : Dead m₁ := ⟨by rw [hnested]; exact Nat.lt_succ_of_lt hf, by rw [hnested]; exact hlt⟩
  exact h.dead hdead

variable [Digests]

theorem execute_conditional (h : OP_IF ≤ opcode ∧ opcode ≤ OP_ENDIF) (f_exec : Bool) :
    execute env opcode [] f_exec = eval_op env opcode f_exec := by
  have hn : ¬opcode ≤ OP_PUSHDATA4 := fun hle => absurd (UInt8.le_trans h.1 hle) (by decide)
  unfold execute
  rw [if_neg fun hc => hn hc.2, if_pos (Or.inr h)]

theorem leads_turns (hop : OP_IF ≤ opcode ∧ opcode ≤ OP_ENDIF) {f : ConditionStack → Option ConditionStack}
    (hf : ∀ f_exec m m', eval answer (eval_op env opcode f_exec) m = .ok ((), m') → ∃ c, f m.cond = some c ∧
      m' = { m with cond := c })
    :
    Leads answer env [opcode] (Turns f) := by
  have hlt : OP_PUSHDATA4 < opcode := UInt8.lt_of_lt_of_le (by decide) hop.1
  refine (Leads.instruction (by simp) (fun rest => get_op_cons hlt rest) ?_).mono ?_
  · intro f_exec m m' h
    rw [execute_conditional hop] at h
    obtain ⟨c, -, rfl⟩ := hf _ _ _ h
    rfl
  · rintro m m' ⟨pc, op_count, m₁, h, rfl⟩
    rw [execute_conditional hop] at h
    obtain ⟨c, hc, rfl⟩ := hf _ _ _ h
    exact ⟨hc, rfl, rfl⟩

theorem leads_else : Leads answer env [OP_ELSE] (Turns toggle_top) :=
  leads_turns (by decide) fun _ _ _ h => eval_op_else_ok h

theorem leads_endif : Leads answer env [OP_ENDIF] (Turns ConditionStack.pop) :=
  leads_turns (by decide) fun _ _ _ h => eval_op_endif_ok h

theorem leads_opens (hop : opcode = OP_IF ∨ opcode = OP_NOTIF) : Leads answer env [opcode] (Opens env opcode) := by
  have hif : OP_IF ≤ opcode ∧ opcode ≤ OP_ENDIF := by rcases hop with rfl | rfl <;> decide
  have hlt : OP_PUSHDATA4 < opcode := UInt8.lt_of_lt_of_le (by decide) hif.1
  have heval (f_exec : Bool) : execute env opcode [] f_exec = op_if env opcode f_exec := by
    rw [execute_conditional hif]
    rcases hop with rfl | rfl <;> rfl
  refine (Leads.instruction (by simp) (fun rest => get_op_cons hlt rest) ?_).mono ?_
  · intro f_exec m m' h
    rw [heval] at h
    cases f_exec with
    | false =>
      obtain ⟨c, -, rfl⟩ := eval_op_if_dead h
      rfl
    | true =>
      obtain ⟨x, r, c, -, -, -, rfl⟩ := eval_op_if_live h
      rfl
  · rintro m m' ⟨pc, op_count, m₁, h, rfl⟩
    rw [heval] at h
    cases ht : m.cond.all_true with
    | false =>
      rw [ht] at h
      obtain ⟨c, hc, rfl⟩ := eval_op_if_dead h
      exact ⟨fun hl => absurd hl.all_true (by simp [ht]), fun _ => ⟨hc, rfl⟩, rfl⟩
    | true =>
      rw [ht] at h
      obtain ⟨x, r, c, hs, hmin, hc, rfl⟩ := eval_op_if_live h
      exact ⟨fun _ => ⟨x, r, hs, hmin, hc, rfl⟩, fun hd => absurd hd.all_true (by simp [ht]), rfl⟩

def Effect.choice (env : Env) (opcode : UInt8) (f g : Effect) : Effect := fun v w => ∃ x r, v.1 = x :: r ∧
  (env.sigversion = .Tapscript → not_minimal_if x = false) ∧
  if cast_to_bool x != (opcode == OP_NOTIF) then f (r, v.2) w else g (r, v.2) w

theorem codes_if_endif {c : List UInt8} {f : Effect} (hop : opcode = OP_IF ∨ opcode = OP_NOTIF)
    (hc : Codes answer env c f) :
    Codes answer env ([opcode] ++ c ++ [OP_ENDIF]) (choice env opcode f fun v w => w = v) := by
  refine (((leads_opens hop).append hc).append leads_endif).mono ?_
  rintro m m' ⟨m₂, ⟨m₁, hopen, hbody⟩, hend⟩
  have hpop := hend.cond
  refine ⟨fun hl => ?_, fun hd => ?_, hend.code.trans (hbody.code.trans hopen.code)⟩
  · obtain ⟨x, r, hs, hmin, hpush, hview⟩ := hopen.live hl
    obtain ⟨hbranch, hlt⟩ := push_true hpush hl.first_false hl.size
    obtain ⟨hcond, hf⟩ := hbody.in_branch hbranch hlt (hopen.code.trans hl.code)
    rw [hcond, pop_branch hl.first_false] at hpop
    rw [hview, ← hend.view] at hf
    exact ⟨(Option.some.inj hpop).symm, x, r, hs, hmin, hf⟩
  · obtain ⟨hpush, hview⟩ := hopen.dead hd
    obtain ⟨hnested, hlt⟩ := push_nested hpush hd.first_false hd.size
    obtain ⟨hcond, hf⟩ := hbody.in_nested hnested hd.first_false hlt
    rw [hcond, pop_nested hd.first_false] at hpop
    exact ⟨(Option.some.inj hpop).symm, hend.view.trans (hf.trans hview)⟩

theorem codes_if_else {c d : List UInt8} {f g : Effect} (hop : opcode = OP_IF ∨ opcode = OP_NOTIF)
    (hc : Codes answer env c f) (hd : Codes answer env d g) :
    Codes answer env ([opcode] ++ c ++ [OP_ELSE] ++ d ++ [OP_ENDIF]) (choice env opcode f g) := by
  refine (((((leads_opens hop).append hc).append leads_else).append hd).append leads_endif).mono ?_
  rintro m m' ⟨m₄, ⟨m₃, ⟨m₂, ⟨m₁, hopen, hbody⟩, helse⟩, hother⟩, hend⟩
  have hcode : m₃.pbegincodehash = m.pbegincodehash := helse.code.trans (hbody.code.trans hopen.code)
  have htoggle := helse.cond
  have hpop := hend.cond
  refine ⟨fun hl => ?_, fun hd => ?_, hend.code.trans (hother.code.trans hcode)⟩
  · obtain ⟨x, r, hs, hmin, hpush, hview⟩ := hopen.live hl
    obtain ⟨hbranch, hlt⟩ := push_true hpush hl.first_false hl.size
    obtain ⟨hcond, hf⟩ := hbody.in_branch hbranch hlt (hopen.code.trans hl.code)
    rw [hcond, toggle_branch hlt, Option.some.injEq] at htoggle
    obtain ⟨hcond', hg⟩ := hother.in_branch htoggle.symm hlt (hcode.trans hl.code)
    rw [hcond', pop_branch hl.first_false] at hpop
    rw [hview] at hf
    rw [helse.view] at hg
    refine ⟨(Option.some.inj hpop).symm, x, r, hs, hmin, ?_⟩
    rw [hend.view]
    cases htaken : cast_to_bool x != (opcode == OP_NOTIF) with
    | true =>
      rw [htaken, if_pos rfl] at hf
      rw [htaken, if_neg (by decide)] at hg
      rw [if_pos rfl, hg]
      exact hf
    | false =>
      rw [htaken, if_neg (by decide)] at hf
      rw [htaken, if_pos Bool.not_false, hf] at hg
      rw [if_neg (by decide)]
      exact hg
  · obtain ⟨hpush, hview⟩ := hopen.dead hd
    obtain ⟨hnested, hlt⟩ := push_nested hpush hd.first_false hd.size
    obtain ⟨hcond, hf⟩ := hbody.in_nested hnested hd.first_false hlt
    rw [hcond, toggle_nested hd.first_false hlt, Option.some.injEq] at htoggle
    obtain ⟨hcond', hg⟩ := hother.in_nested htoggle.symm hd.first_false hlt
    rw [hcond', pop_nested hd.first_false] at hpop
    exact ⟨(Option.some.inj hpop).symm, hend.view.trans (hg.trans (helse.view.trans (hf.trans hview)))⟩

variable {f g h : List Element → List Element → Prop}

omit [Digests] in
theorem Effect.choice_on_stack
    (hfg : ∀ x r t, (env.sigversion = .Tapscript → not_minimal_if x = false) →
      (if cast_to_bool x != (opcode == OP_NOTIF) then f r t else g r t) → h (x :: r) t) (v w : View)
    (hc : choice env opcode (on_stack f) (on_stack g) v w) : on_stack h v w := by
  obtain ⟨x, r, hs, hmin, hc⟩ := hc
  have hsplit : w.2 = v.2 ∧ if cast_to_bool x != (opcode == OP_NOTIF) then f r w.1 else g r w.1 := by
    split at hc
    · next ht => exact ⟨hc.1, by rw [if_pos ht]; exact hc.2⟩
    · next ht => exact ⟨hc.1, by rw [if_neg ht]; exact hc.2⟩
  exact ⟨hsplit.1, hs ▸ hfg x r w.1 hmin hsplit.2⟩

theorem Codes.ifEndif {c : List UInt8} (hop : opcode = OP_IF ∨ opcode = OP_NOTIF)
    (hc : Codes answer env c (on_stack f))
    (hf : ∀ x r t, (env.sigversion = .Tapscript → not_minimal_if x = false) →
      (if cast_to_bool x != (opcode == OP_NOTIF) then f r t else t = r) → h (x :: r) t) :
    Codes answer env ([opcode] ++ c ++ [OP_ENDIF]) (on_stack h) := by
  refine (codes_if_endif hop hc).mono fun v w hvw => choice_on_stack hf v w ?_
  obtain ⟨x, r, hs, hmin, hvw⟩ := hvw
  refine ⟨x, r, hs, hmin, ?_⟩
  split
  · next ht => rwa [if_pos ht] at hvw
  · next ht =>
    rw [if_neg ht] at hvw
    rw [hvw]
    exact ⟨rfl, rfl⟩

theorem Codes.ifElse {c d : List UInt8} (hop : opcode = OP_IF ∨ opcode = OP_NOTIF)
    (hc : Codes answer env c (on_stack f)) (hd : Codes answer env d (on_stack g))
    (hf : ∀ x r t, (env.sigversion = .Tapscript → not_minimal_if x = false) →
      (if cast_to_bool x != (opcode == OP_NOTIF) then f r t else g r t) → h (x :: r) t) :
    Codes answer env ([opcode] ++ c ++ [OP_ELSE] ++ d ++ [OP_ENDIF]) (on_stack h) :=
  (codes_if_else hop hc hd).mono (choice_on_stack hf)

end AvilaNode.Interpreter
