import AvilaNode.FailedAdmission

/-! The dry run of an admission: its gates in order, each with whether the transaction passes it. -/

namespace AvilaNode

open Layers Relation

inductive Gate where
  | context_free
  | coinbase
  | already_known
  | weight_cap
  | standard_tx
  | standard_tx_size
  | input_resolution
  | standard_inputs
  | standard_witness
  | sigop_cap
  | bip125_signal
  | truc
  | spends_conflict
  | replacement_candidates
  | package_limits
  | consensus_inputs
  | ephemeral_dust
  | bip125_fee
  | bip68
  | scripts
  | min_relay_fee
  | mempool_min_fee
  | capacity
deriving DecidableEq, Repr

structure PolicyStep where
  gate : Gate
  passed : Bool
deriving DecidableEq, Repr

def MempoolReject.gates : MempoolReject → List Gate
  | .Consensus _ => [.context_free]
  | .Coinbase => [.coinbase]
  | .AlreadyKnown => [.already_known]
  | .TooHeavy => [.weight_cap]
  | .InputsMissingOrSpent => [.input_resolution]
  | .Inputs _ => [.consensus_inputs]
  | .NotFinal => [.bip68]
  | .ScriptVerify _ => [.scripts]
  | .MinRelayFee => [.min_relay_fee]
  | .Conflict => [.bip125_signal, .bip125_fee]
  | .Full => [.capacity]
  | .PackageLimits => [.package_limits]
  | .SpendsConflict => [.spends_conflict]
  | .TooManyReplacements => [.replacement_candidates]
  | .TooManySigops => [.sigop_cap]
  | .NotStandard _ => [.standard_tx, .standard_tx_size, .standard_inputs, .standard_witness, .ephemeral_dust]
  | .MempoolMinFeeNotMet => [.mempool_min_fee]
  | .TrucViolation _ => [.truc]
  | .PolicyHook => []

abbrev Explain := OptionT (StateM (List PolicyStep))

namespace Explain

def push (gate : Gate) (passed : Bool) : Explain Unit := fun steps =>
  (if passed then some () else none, steps ++ [⟨gate, passed⟩])

def steps {α : Type} (x : Explain α) : List PolicyStep := (x.run.run []).2

/-- Where the checks pass the steps all pass, with the same result; where they stop the last step alone fails, at a
gate of the error. -/
def Follows {α : Type} (x : Explain α) (r : Except MempoolReject α) : Prop :=
  ∀ before, ∃ after, (∀ step ∈ after, step.passed) ∧
    ((∃ a, r = .ok a ∧ x before = (some a, before ++ after)) ∨
      ∃ e gate, r = .error e ∧ gate ∈ e.gates ∧ x before = (none, before ++ (after ++ [⟨gate, false⟩])))

section

variable {α β : Type} {x : Explain α} {r : Except MempoolReject α}

theorem Follows.pure (a : α) : Follows (pure a) (.ok a) :=
  fun before => ⟨[], fun _ h => (List.not_mem_nil h).elim, .inl ⟨a, rfl, by rw [List.append_nil]; rfl⟩⟩

theorem Follows.bind {f : α → Explain β} {g : α → Except MempoolReject β} (hx : Follows x r)
    (hf : ∀ a, r = .ok a → Follows (f a) (g a)) : Follows (x >>= f) (r >>= g) := by
  intro before
  obtain ⟨after, hpassed, ⟨a, rfl, hrun⟩ | ⟨e, gate, rfl, hgate, hrun⟩⟩ := hx before
  · have hbind : (x >>= f) before = f a (before ++ after) := by
      simp only [OptionT.bind, OptionT.mk, Bind.bind, StateT.bind]
      rw [hrun]
    obtain ⟨later, hlater, hrest⟩ := hf a rfl (before ++ after)
    refine ⟨after ++ later, fun step hstep => (List.mem_append.mp hstep).elim (hpassed step) (hlater step), ?_⟩
    rw [hbind]
    rcases hrest with ⟨b, hb, hrun⟩ | ⟨e, gate, he, hgate, hrun⟩
    · refine .inl ⟨b, hb, ?_⟩
      rw [hrun, List.append_assoc]
    · refine .inr ⟨e, gate, he, hgate, ?_⟩
      rw [hrun, List.append_assoc, List.append_assoc]
  · refine ⟨after, hpassed, .inr ⟨e, gate, rfl, hgate, ?_⟩⟩
    simp only [OptionT.bind, OptionT.mk, Bind.bind, StateT.bind]
    rw [hrun]
    rfl

variable {gate : Gate} {passed : Bool} {e : MempoolReject}

theorem push_passed (h : passed = true) : Follows (push gate passed) (.ok ()) := by
  subst h
  exact fun before => ⟨[⟨gate, true⟩], fun step hstep => by rw [List.mem_singleton.mp hstep], .inl ⟨(), rfl, rfl⟩⟩

theorem push_failed (h : passed = false) (hgate : gate ∈ e.gates) : Follows (push gate passed) (.error e) := by
  subst h
  exact fun before => ⟨[], fun _ h => (List.not_mem_nil h).elim, .inr ⟨e, gate, rfl, hgate, rfl⟩⟩

theorem Follows.push_then (h : passed = true) (hx : Follows x r) : Follows (push gate passed >>= fun _ => x) r :=
  (push_passed h).bind (g := fun _ => r) fun _ _ => hx

theorem push_stop {f : Unit → Explain α} (h : passed = false) (hgate : gate ∈ e.gates) :
    Follows (push gate passed >>= f) (.error e) :=
  (push_failed h hgate).bind (g := fun _ => .error e) nofun

theorem Follows.push_else {p : Prop} [Decidable p] (hgate : gate ∈ e.gates) (hpassed : passed = decide (¬ p))
    (h : ¬ p → Follows x r) :
    Follows (push gate passed >>= fun _ => x) (if p then .error e else r) := by
  split
  · next hp => exact push_stop (hpassed.trans (decide_eq_false (not_not_intro hp))) hgate
  · next hp => exact (h hp).push_then (hpassed.trans (decide_eq_true hp))

theorem push_require (hgate : gate ∈ e.gates) : Follows (push gate passed) (require passed e) := by
  unfold require
  split
  · next h => exact push_passed h
  · next h => exact push_failed (Bool.eq_false_of_not_eq_true h) hgate

theorem push_standard {verdict : Except String Unit} (hgate : gate ∈ (MempoolReject.NotStandard "").gates) :
    Follows (push gate verdict.isOk) (standard verdict) := by
  cases verdict with
  | ok u => exact push_passed rfl
  | error reason => exact push_failed rfl hgate

def first_failed (steps : List PolicyStep) : Option Gate := (steps.find? fun step => !step.passed).map PolicyStep.gate

variable {before : List PolicyStep}

theorem first_failed_last (h : ∀ step ∈ before, step.passed) (gate : Gate) :
    first_failed (before ++ [⟨gate, false⟩]) = some gate := by
  have hbefore : before.find? (fun step => !step.passed) = none :=
    List.find?_eq_none.mpr fun step hstep => by rw [h step hstep]; decide
  unfold first_failed
  rw [List.find?_append, hbefore]
  rfl

def Agrees {α : Type} (steps : List PolicyStep) (r : Except MempoolReject α) : Prop :=
  ((∃ a, r = .ok a) ↔ ∀ step ∈ steps, step.passed) ∧ ∀ e, r = .error e →
    ∃ gate ∈ e.gates, first_failed steps = some gate

theorem agrees_ok {steps : List PolicyStep} (h : ∀ step ∈ steps, step.passed) (a : α) :
    Agrees steps (.ok a) := ⟨⟨fun _ => h, fun _ => ⟨a, rfl⟩⟩, nofun⟩

theorem agrees_error (h : ∀ step ∈ before, step.passed) (hgate : gate ∈ e.gates) :
    Agrees (before ++ [⟨gate, false⟩]) (.error e : Except MempoolReject α) := by
  refine ⟨⟨nofun, fun hall => ?_⟩, fun e' he => ?_⟩
  · have hlast := hall ⟨gate, false⟩ (List.mem_append_right before (List.mem_singleton_self _))
    cases hlast
  · cases he
    exact ⟨gate, hgate, first_failed_last h gate⟩

theorem steps_agree (h : Follows x (.error e)) : Agrees x.steps (.error e : Except MempoolReject β) := by
  obtain ⟨after, hpassed, ⟨a, ha, -⟩ | ⟨e', gate, he, hgate, hrun⟩⟩ := h []
  · cases ha
  · cases he
    have hsteps : x.steps = after ++ [⟨gate, false⟩] := congrArg Prod.snd hrun
    rw [hsteps]
    exact agrees_error hpassed hgate

theorem steps_passed {a : α} (h : Follows x (.ok a)) : ∀ step ∈ x.steps, step.passed := by
  obtain ⟨after, hpassed, ⟨a', -, hrun⟩ | ⟨e, gate, he, -⟩⟩ := h []
  · have hsteps : x.steps = after := congrArg Prod.snd hrun
    rw [hsteps]
    exact hpassed
  · cases he

end

end Explain

namespace Mempool

open Explain

structure Found where
  spent : List Coin
  missing : ℕ
  conflicts : List Txid

section

variable [Platform]

def find_coin (m : Mempool) (cs : Chainstate) (op : OutPoint) (found : Found) : Found :=
  match cs.utxo.get op with
  | some coin => { found with spent := found.spent ++ [coin] }
  | none =>
    match (m.map.lookup op.txid).bind fun parent => parent.tx.outputs[op.vout]? with
    | some out => { found with spent := found.spent ++ [⟨out, cs.tree.tip_height, false⟩] }
    | none => { found with missing := found.missing + 1 }

def find_input (m : Mempool) (cs : Chainstate) (found : Found) (input : TxIn) : Found :=
  let found := m.find_coin cs input.previous_output found
  { found with conflicts := m.note_conflict found.conflicts input }

def find_inputs (m : Mempool) (cs : Chainstate) (tx : Transaction) : Found :=
  tx.inputs.foldl (m.find_input cs) ⟨[], 0, []⟩

def explain_truc (m : Mempool) (tx : Transaction) (vsize : ℕ) (conflicts : List Txid) : Explain (List Txid) :=
  match single_truc_checks tx.version vsize ((m.direct_parents tx).filterMap m.parent_facts) conflicts with
  | .Ok => do
    push .truc true
    pure conflicts
  | .Reject _ => do
    push .truc false
    pure conflicts
  | .ConsiderSiblingEviction _ sibling => do
    push .truc true
    pure (if conflicts.contains sibling then conflicts else conflicts ++ [sibling])

def explain_replacement (m : Mempool) (ancestors conflicts : List Txid) : Explain Unit :=
  if conflicts.isEmpty then pure ()
  else do
    let replaced := m.set_being_replaced conflicts
    push .spends_conflict (!ancestors.any fun ancestor => replaced.contains ancestor)
    push .replacement_candidates (decide (replaced.length ≤ MAX_REPLACEMENT_CANDIDATES))

def limit_violation (m : Mempool) (ancestors : List Txid) (vsize : ℕ) : Bool :=
  if ANCESTOR_LIMIT < ancestors.length + 1 then true
  else if ANCESTOR_SIZE_LIMIT_KVB * 1000
      < ((ancestors.filterMap m.map.lookup).map MempoolEntry.vsize).sum + vsize then true
  else ancestors.any fun ancestor => decide (DESCENDANT_LIMIT < (m.descendants_of ancestor).1 + 1)
      || decide (DESCENDANT_SIZE_LIMIT_KVB * 1000 < (m.descendants_of ancestor).2 + vsize)

def explain_fee (tx : Transaction) (spent : List Coin) (next_height : ℕ) : Explain ℤ :=
  match check_fee tx spent next_height with
  | .ok fee => do
    push .consensus_inputs true
    pure fee
  | .error _ => do
    push .consensus_inputs false
    pure 0

def explain_bump (m : Mempool) (conflicts : List Txid) (fee : ℤ) (vsize : ℕ) : Explain Unit :=
  if conflicts.isEmpty then pure ()
  else push .bip125_fee (decide (m.conflict_fees conflicts + incremental_fee vsize ≤ fee))

def explain_locks (cs : Chainstate) (tx : Transaction) (spent : List Coin) (next_height : ℕ) : Explain Unit :=
  if cs.params.csv_height ≤ next_height then
    push .bip68 ((cs.tree.median_time_past cs.connected).any fun mtp =>
      bip68_locks_satisfied tx spent next_height mtp cs.tree cs.connected)
  else pure ()

def explain_capacity (m : Mempool) (tx : Transaction) (fee : ℤ) (vsize : ℕ) : Explain Unit :=
  push .capacity
    (if m.len < m.settings.max_entries ∧ m.pool_bytes + tx.encode.length ≤ m.settings.max_bytes then true
    else
      match m.worst_by_descendant_score with
      | some worst => decide (worst.fee * vsize < fee * worst.size)
      | none => false)

variable [PoolPolicy]

def explain_alone (m : Mempool) (tx : Transaction) : Explain Unit := do
  push .context_free (check_transaction tx).isOk
  if tx.is_coinbase then push .coinbase false
  else do
    push .already_known (!m.contains (Platform.txid tx))
    push .weight_cap (decide (tx.weight ≤ MAX_STANDARD_TX_WEIGHT))
    if m.settings.require_standard then do
      push .standard_tx (PoolPolicy.is_standard_tx tx m.settings.max_datacarrier_bytes m.settings.permit_bare_multisig
        m.settings.dust_relay_fee).isOk
      push .standard_tx_size (decide (MIN_STANDARD_TX_NONWITNESS_SIZE ≤ tx.size_without_witness))
    else pure ()

def explain_standard_inputs (m : Mempool) (tx : Transaction) (spent : List Coin) : Explain Unit :=
  if m.settings.require_standard then do
    push .standard_inputs (PoolPolicy.are_inputs_standard tx (spent.map Coin.out)).isOk
    if tx.has_witness then push .standard_witness (PoolPolicy.is_witness_standard tx (spent.map Coin.out)).isOk
    else pure ()
  else pure ()

def explain_ephemeral (m : Mempool) (tx : Transaction) (fee modified_fee : ℤ) : Explain Unit :=
  if m.settings.require_standard then
    push .ephemeral_dust (PoolPolicy.precheck_ephemeral tx m.settings.dust_relay_fee fee modified_fee).isOk
  else pure ()

def explain_checks (m : Mempool) (tx : Transaction) (cs : Chainstate) (now : ℕ) : Explain Candidate := do
  m.explain_alone tx
  let found := m.find_inputs cs tx
  push .input_resolution (decide (found.missing = 0))
  m.explain_standard_inputs tx found.spent
  let next_height := cs.tree.tip_height + 1
  let flags := standard_script_flags cs next_height cs.connected
  let sigops := m.real_sigop_cost cs tx flags
  push .sigop_cap (decide (sigops ≤ MAX_STANDARD_TX_SIGOPS_COST))
  let vsize := virtual_size tx.weight sigops
  push .bip125_signal (found.conflicts.isEmpty || m.settings.full_rbf
    || (found.conflicts.all fun id => (m.map.lookup id).any fun entry => signals_rbf entry.tx) && signals_rbf tx)
  let ancestors := m.ancestors_of tx
  let conflicts ← m.explain_truc tx vsize found.conflicts
  m.explain_replacement ancestors conflicts
  push .package_limits (!m.limit_violation ancestors vsize)
  let fee ← explain_fee tx found.spent next_height
  let modified_fee := saturating_add fee ((m.deltas.lookup (Platform.txid tx)).getD 0)
  m.explain_ephemeral tx fee modified_fee
  m.explain_bump conflicts fee vsize
  explain_locks cs tx found.spent next_height
  push .scripts (Platform.check_input_scripts tx (found.spent.map Coin.out) flags).isNone
  push .min_relay_fee (decide (m.settings.min_relay_fee * vsize ≤ fee * 1000))
  push .mempool_min_fee (decide (m.min_mempool_fee now * vsize ≤ modified_fee * 1000))
  pure { spent := found.spent, conflicts, ancestors, vsize, sigops, fee, modified_fee, next_height }

def explain_tx (m : Mempool) (tx : Transaction) (cs : Chainstate) (now : ℕ) : List PolicyStep :=
  steps do
    let c ← m.explain_checks tx cs now
    m.explain_capacity tx c.fee c.vsize

variable {m : Mempool} {cs : Chainstate} {tx : Transaction} {now : ℕ}

omit [PoolPolicy] in
theorem find_coin_some {op : OutPoint} {coin : Coin} (h : m.resolve cs op = some coin) (found : Found) :
    m.find_coin cs op found = { found with spent := found.spent ++ [coin] } := by
  unfold find_coin
  unfold resolve at h
  cases hset : cs.utxo.get op with
  | some coin' =>
    rw [hset] at h
    cases h
    rfl
  | none =>
    rw [hset] at h
    obtain ⟨parent, hparent, hout⟩ := Option.bind_eq_some_iff.mp h
    obtain ⟨out, hfound, rfl⟩ := Option.map_eq_some_iff.mp hout
    rw [hparent, Option.bind_some, hfound]

omit [PoolPolicy] in
theorem find_coin_none {op : OutPoint} (h : m.resolve cs op = none) (found : Found) :
    m.find_coin cs op found = { found with missing := found.missing + 1 } := by
  unfold find_coin
  unfold resolve at h
  cases hset : cs.utxo.get op with
  | some coin =>
    rw [hset] at h
    cases h
  | none =>
    rw [hset] at h
    cases hparent : m.map.lookup op.txid with
    | none => rfl
    | some parent =>
      rw [hparent] at h
      rw [Option.bind_some, Option.map_eq_none_iff.mp h]

omit [PoolPolicy] in
theorem find_inputs_conflicts (m : Mempool) (cs : Chainstate) (inputs : List TxIn) (found : Found) :
    (inputs.foldl (m.find_input cs) found).conflicts = inputs.foldl m.note_conflict found.conflicts := by
  induction inputs generalizing found with
  | nil => rfl
  | cons input inputs ih =>
    rw [List.foldl_cons, List.foldl_cons, ih]
    have hconflicts : (m.find_coin cs input.previous_output found).conflicts = found.conflicts := by
      cases h : m.resolve cs input.previous_output with
      | some coin => rw [find_coin_some h]
      | none => rw [find_coin_none h]
    exact congrArg (fun conflicts => inputs.foldl m.note_conflict (m.note_conflict conflicts input)) hconflicts

omit [PoolPolicy] in
theorem find_inputs_missing (m : Mempool) (cs : Chainstate) (inputs : List TxIn) (found : Found) :
    found.missing ≤ (inputs.foldl (m.find_input cs) found).missing := by
  induction inputs generalizing found with
  | nil => exact le_refl _
  | cons input inputs ih =>
    refine le_trans ?_ (ih _)
    unfold find_input
    cases h : m.resolve cs input.previous_output with
    | some coin => rw [find_coin_some h]
    | none =>
      rw [find_coin_none h]
      exact Nat.le_succ _

variable {c : Candidate} {inputs : List TxIn}

omit [PoolPolicy] in
theorem find_inputs_some {spent : List Coin} (h : m.resolve_inputs cs inputs = some spent) (found : Found) :
    (inputs.foldl (m.find_input cs) found).missing = found.missing ∧
      (inputs.foldl (m.find_input cs) found).spent = found.spent ++ spent := by
  induction inputs generalizing found spent with
  | nil =>
    cases h
    exact ⟨rfl, (List.append_nil _).symm⟩
  | cons input inputs ih =>
    unfold resolve_inputs at h
    cases hcoin : m.resolve cs input.previous_output with
    | none =>
      rw [hcoin] at h
      cases h
    | some coin =>
      rw [hcoin] at h
      obtain ⟨rest, hrest, rfl⟩ := Option.map_eq_some_iff.mp h
      obtain ⟨hmissing, hspent⟩ := ih hrest (m.find_input cs found input)
      rw [List.foldl_cons, hmissing, hspent]
      unfold find_input
      rw [find_coin_some hcoin, List.append_assoc]
      exact ⟨rfl, rfl⟩

omit [PoolPolicy] in
theorem find_inputs_none (h : m.resolve_inputs cs inputs = none) (found : Found) :
    found.missing < (inputs.foldl (m.find_input cs) found).missing := by
  induction inputs generalizing found with
  | nil => cases h
  | cons input inputs ih =>
    unfold resolve_inputs at h
    rw [List.foldl_cons]
    cases hcoin : m.resolve cs input.previous_output with
    | none =>
      refine lt_of_lt_of_le ?_ (find_inputs_missing m cs inputs _)
      unfold find_input
      rw [find_coin_none hcoin]
      exact Nat.lt_succ_self _
    | some coin =>
      rw [hcoin] at h
      refine lt_of_le_of_lt (le_of_eq ?_) (ih (Option.map_eq_none_iff.mp h) _)
      unfold find_input
      rw [find_coin_some hcoin]

theorem explain_alone_follows (m : Mempool) (tx : Transaction) : Follows (m.explain_alone tx) (m.check_alone tx) := by
  unfold explain_alone check_alone
  cases check_transaction tx with
  | error e => exact push_stop rfl (List.mem_singleton_self _)
  | ok u =>
    refine .push_then rfl ?_
    by_cases hcoinbase : tx.is_coinbase
    · rw [if_pos hcoinbase, if_pos hcoinbase]
      exact push_failed rfl (by decide)
    rw [if_neg hcoinbase, if_neg hcoinbase]
    refine .push_else (by decide) ?_ fun _ => .push_else (by decide) ?_ fun _ => ?_
    · cases m.contains (Platform.txid tx) <;> rfl
    · rw [decide_eq_decide, not_lt]
    · by_cases hstandard : m.settings.require_standard
      · rw [if_pos hstandard, if_pos hstandard]
        exact (push_standard (by decide)).bind fun _ _ => push_require (by decide)
      · rw [if_neg hstandard, if_neg hstandard]
        exact .pure ()

omit [Platform] in
theorem explain_standard_inputs_follows (m : Mempool) (tx : Transaction) (spent : List Coin) :
    Follows (m.explain_standard_inputs tx spent) (m.check_standard_inputs tx spent) := by
  unfold explain_standard_inputs check_standard_inputs
  split
  · refine (push_standard (by decide)).bind fun _ _ => ?_
    split
    · exact push_standard (by decide)
    · exact .pure ()
  · exact .pure ()

omit [Platform] in
theorem explain_ephemeral_follows (m : Mempool) (tx : Transaction) (fee modified_fee : ℤ) :
    Follows (m.explain_ephemeral tx fee modified_fee) (m.check_ephemeral tx fee modified_fee) := by
  unfold explain_ephemeral check_ephemeral
  split
  · exact push_standard (by decide)
  · exact .pure ()

omit [Platform] [PoolPolicy] in
theorem explain_truc_follows (m : Mempool) (tx : Transaction) (vsize : ℕ) (conflicts : List Txid) :
    Follows (m.explain_truc tx vsize conflicts) (m.truc_conflicts tx vsize conflicts) := by
  unfold explain_truc truc_conflicts
  cases single_truc_checks tx.version vsize ((m.direct_parents tx).filterMap m.parent_facts) conflicts with
  | Ok => exact (Follows.pure _).push_then rfl
  | Reject reason => exact push_stop rfl (List.mem_singleton_self _)
  | ConsiderSiblingEviction reason sibling =>
    simp only [List.contains_iff_mem]
    exact (Follows.pure _).push_then rfl

omit [Platform] [PoolPolicy] in
theorem explain_replacement_follows (m : Mempool) (ancestors conflicts : List Txid) :
    Follows (m.explain_replacement ancestors conflicts) (m.check_replacement ancestors conflicts) := by
  unfold explain_replacement check_replacement
  split
  · exact .pure ()
  refine .push_else (by decide) ?_ fun _ => ?_
  · cases ancestors.any fun ancestor => (m.set_being_replaced conflicts).contains ancestor <;> rfl
  · split
    · next h => exact push_failed (decide_eq_false (not_le_of_gt h)) (by decide)
    · next h => exact push_passed (decide_eq_true (not_lt.mp h))

omit [Platform] [PoolPolicy] in
theorem limit_violation_follows (m : Mempool) (ancestors : List Txid) (vsize : ℕ) :
    Follows (push .package_limits (!m.limit_violation ancestors vsize)) (m.check_package ancestors vsize) := by
  unfold limit_violation check_package
  split
  · exact push_failed rfl (by decide)
  split
  · exact push_failed rfl (by decide)
  · split
    · next h => exact push_failed (by rw [h]; rfl) (by decide)
    · next h => exact push_passed (by rw [Bool.eq_false_of_not_eq_true h]; rfl)

omit [PoolPolicy] in
theorem explain_fee_follows (tx : Transaction) (spent : List Coin) (next_height : ℕ) :
    Follows (explain_fee tx spent next_height) (check_fee tx spent next_height) := by
  unfold explain_fee
  cases hfee : check_fee tx spent next_height with
  | ok fee => exact (Follows.pure fee).push_then rfl
  | error e =>
    have hgate : Gate.consensus_inputs ∈ e.gates := by
      unfold check_fee at hfee
      split at hfee
      · cases hfee
        exact List.mem_singleton_self _
      · cases hfee
    exact push_stop rfl hgate

omit [Platform] [PoolPolicy] in
theorem explain_bump_follows (m : Mempool) (conflicts : List Txid) (fee : ℤ) (vsize : ℕ) :
    Follows (m.explain_bump conflicts fee vsize) (m.check_bump conflicts fee vsize) := by
  unfold explain_bump check_bump
  split
  · exact .pure ()
  · split
    · next h => exact push_failed (decide_eq_false (not_le_of_gt h)) (by decide)
    · next h => exact push_passed (decide_eq_true (not_lt.mp h))

omit [PoolPolicy] in
theorem explain_locks_follows (cs : Chainstate) (tx : Transaction) (spent : List Coin) (next_height : ℕ) :
    Follows (explain_locks cs tx spent next_height) (check_locks cs tx spent next_height) := by
  unfold explain_locks check_locks
  split
  · cases cs.tree.median_time_past cs.connected with
    | none => exact push_failed rfl (by decide)
    | some mtp =>
      dsimp only
      split
      · next h => exact push_passed h
      · next h => exact push_failed (Bool.eq_false_of_not_eq_true h) (by decide)
  · exact .pure ()

omit [PoolPolicy] in
theorem check_scripts_follows (tx : Transaction) (spent : List Coin) (flags : ScriptFlags) :
    Follows (push .scripts (Platform.check_input_scripts tx (spent.map Coin.out) flags).isNone)
      (check_scripts tx spent flags) := by
  unfold check_scripts
  cases Platform.check_input_scripts tx (spent.map Coin.out) flags with
  | none => exact push_passed rfl
  | some e => exact push_failed rfl (List.mem_singleton_self _)

theorem explain_checks_follows (m : Mempool) (tx : Transaction) (cs : Chainstate) (now : ℕ) :
    Follows (m.explain_checks tx cs now) (m.examine tx cs now) := by
  unfold explain_checks examine
  refine (explain_alone_follows m tx).bind fun _ _ => ?_
  cases hspent : m.resolve_inputs cs tx.inputs with
  | none =>
    have hmissing : 0 < (m.find_inputs cs tx).missing := find_inputs_none hspent ⟨[], 0, []⟩
    exact push_stop (decide_eq_false hmissing.ne') (by decide)
  | some spent =>
    obtain ⟨hmissing, hfound⟩ := find_inputs_some hspent ⟨[], 0, []⟩
    have hconflicts : (m.find_inputs cs tx).conflicts = m.direct_conflicts tx :=
      find_inputs_conflicts m cs tx.inputs _
    change (m.find_inputs cs tx).spent = [] ++ spent at hfound
    rw [List.nil_append] at hfound
    refine .push_then (decide_eq_true hmissing) ?_
    rw [hfound, hconflicts]
    refine (explain_standard_inputs_follows m tx spent).bind fun _ _ => ?_
    refine (push_require (by decide)).bind fun _ _ => (push_require (by decide)).bind fun _ _ => ?_
    refine (explain_truc_follows m tx _ _).bind fun conflicts _ => ?_
    refine (explain_replacement_follows m _ conflicts).bind fun _ _ => ?_
    refine (limit_violation_follows m _ _).bind fun _ _ => (explain_fee_follows tx spent _).bind fun fee _ => ?_
    refine (explain_ephemeral_follows m tx fee _).bind fun _ _ => ?_
    refine (explain_bump_follows m conflicts fee _).bind fun _ _ => ?_
    refine (explain_locks_follows cs tx spent _).bind fun _ _ => (check_scripts_follows tx spent _).bind fun _ _ => ?_
    exact (push_require (by decide)).bind fun _ _ => (push_require (by decide)).bind fun _ _ => .pure _

omit [Platform] [PoolPolicy] in
theorem explain_capacity_holds (h : Holds c tx.encode.length m) :
    Follows (m.explain_capacity tx c.fee c.vsize) (.error .Full) := by
  obtain ⟨hcrowded, hworst⟩ := h
  refine push_failed ?_ (by decide)
  have hfull : ¬ (m.len < m.settings.max_entries ∧ m.pool_bytes + tx.encode.length ≤ m.settings.max_bytes) := by
    unfold crowded at hcrowded
    grind
  rw [if_neg hfull]
  cases hw : m.worst_by_descendant_score with
  | none => rfl
  | some worst => exact hworst worst hw

omit [Platform] [PoolPolicy] in
theorem explain_capacity_room (h : ¬ Holds c tx.encode.length m) :
    Follows (m.explain_capacity tx c.fee c.vsize) (.ok ()) := by
  apply push_passed
  split
  · rfl
  · next hfull =>
    have hcrowded : m.crowded tx.encode.length := by
      unfold crowded
      grind
    cases hw : m.worst_by_descendant_score with
    | none => exact absurd ⟨hcrowded, fun worst hworst => by rw [hw] at hworst; cases hworst⟩ h
    | some worst =>
      by_contra hout
      refine h ⟨hcrowded, fun worst' hworst => ?_⟩
      rw [hw] at hworst
      cases hworst
      exact Bool.eq_false_of_not_eq_true hout

theorem explain_refused {e : MempoolReject} (h : m.examine tx cs now = .error e) :
    Agrees (m.explain_tx tx cs now) (.error e : Except MempoolReject Txid) := by
  have hchecks := explain_checks_follows m tx cs now
  rw [h] at hchecks
  exact steps_agree (hchecks.bind (g := fun _ => .ok ()) nofun)

theorem explain_full (h : m.examine tx cs now = .ok c) (hholds : Holds c tx.encode.length m) :
    Agrees (m.explain_tx tx cs now) (.error .Full : Except MempoolReject Txid) := by
  have hchecks := explain_checks_follows m tx cs now
  rw [h] at hchecks
  refine steps_agree (hchecks.bind (g := fun _ => .error .Full) fun c' hc' => ?_)
  cases hc'
  exact explain_capacity_holds hholds

theorem explain_passed (h : m.examine tx cs now = .ok c) (hroom : ¬ Holds c tx.encode.length m) :
    ∀ step ∈ m.explain_tx tx cs now, step.passed := by
  have hchecks := explain_checks_follows m tx cs now
  rw [h] at hchecks
  refine steps_passed (hchecks.bind (g := fun _ => .ok ()) fun c' hc' => ?_)
  cases hc'
  exact explain_capacity_room hroom

end

section

attribute [local instance] Platform.sample PoolPolicy.sample

end

end Mempool

end AvilaNode
