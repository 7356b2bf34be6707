import AvilaNode.SchnorrQueries

/-! The precomputed hashes of a transaction: digests are the same with them and without. -/

namespace AvilaNode.Interpreter

open ByteStrings Digests OraclePrograms Exec Transaction PrecomputedTransactionData

section
variable [Digests]

variable {tx : Transaction} {inputs : List TxIn}

theorem new_bip143 {spent_outputs : Option (List TxOut)} {force : Bool}
    (h : (new tx spent_outputs force).bip143_segwit_ready = true) :
    (new tx spent_outputs force).hash_prevouts = sha256 (prevouts_single_hash tx) ∧
      (new tx spent_outputs force).hash_sequence = sha256 (sequences_single_hash tx) ∧
      (new tx spent_outputs force).hash_outputs = sha256 (outputs_single_hash tx) := by
  unfold new at h ⊢
  dsimp only at h ⊢
  generalize uses (with_spent spent_outputs).spent_outputs 0 tx.inputs (force, force) = used at h ⊢
  obtain ⟨bip143, bip341⟩ := used
  cases bip143 with
  | true =>
    simp only [Bool.true_or, ↓reduceIte]
    split <;> exact ⟨rfl, rfl, rfl⟩
  | false =>
    cases bip341 with
    | true =>
      simp only [Bool.false_or, ↓reduceIte, Bool.false_eq_true] at h
      split at h <;> cases h
    | false => cases h

variable {spent_outputs : List TxOut} (script_code : Script) {used : Bool × Bool} {flags : ScriptFlags}

omit [Digests] in
theorem uses_taproot_stays {spent : List TxOut} {inpos : ℕ} (h : used.2 = true) :
    (uses spent inpos inputs used).2 = true := by
  induction inputs generalizing inpos used with
  | nil => exact h
  | cons input inputs ih =>
    rw [uses]
    split
    · exact h
    split
    · exact ih h
    split
    · exact ih rfl
    · exact ih h

omit [Digests] in
theorem uses_taproot {spent : List TxOut} {inpos j : ℕ} {input : TxIn} (hinput : inputs[j]? = some input)
    (hwitness : input.witness ≠ []) (hspent : spent[inpos + j]?.any is_taproot_spk = true) :
    (uses spent inpos inputs used).2 = true := by
  induction inputs generalizing inpos j used with
  | nil => cases hinput
  | cons first inputs ih =>
    rw [uses]
    split
    · rename_i hboth
      exact (Bool.and_eq_true_iff.mp hboth).2
    cases j with
    | zero =>
      obtain rfl := Option.some.inj hinput
      rw [Nat.add_zero] at hspent
      rw [if_neg (by simpa using hwitness), if_pos hspent]
      exact uses_taproot_stays rfl
    | succ j =>
      have hspent' : spent[inpos + 1 + j]?.any is_taproot_spk = true := by
        rwa [Nat.add_assoc, Nat.add_comm 1 j]
      have hinput' : inputs[j]? = some input := hinput
      split
      · exact ih hinput' hspent'
      split
      · exact ih hinput' hspent'
      · exact ih hinput' hspent'

theorem new_taproot {spent : List TxOut} {force : Bool} (hspent : spent ≠ [])
    (huses : (uses spent 0 tx.inputs (force, force)).2 = true) :
    TaprootReady tx spent (new tx (some spent) force) := by
  have hready : (!spent.isEmpty) = true := by
    cases spent with
    | nil => exact absurd rfl hspent
    | cons _ _ => rfl
  unfold new
  dsimp only
  change (uses (with_spent (some spent)).spent_outputs 0 tx.inputs (force, force)).2 = true at huses
  generalize uses (with_spent (some spent)).spent_outputs 0 tx.inputs (force, force) = used at huses ⊢
  obtain ⟨bip143, bip341⟩ := used
  obtain rfl : bip341 = true := huses
  cases bip143 with
  | true =>
    simp only [Bool.true_or, ↓reduceIte, Bool.true_and]
    rw [if_pos (show (fill_bip143 (fill_shared tx (with_spent (some spent)))).spent_outputs_ready = true from hready)]
    exact ⟨rfl, hready, rfl, rfl, rfl, rfl, rfl, rfl⟩
  | false =>
    simp only [Bool.or_true, ↓reduceIte, Bool.true_and, Bool.false_eq_true]
    rw [if_pos (show (fill_shared tx (with_spent (some spent))).spent_outputs_ready = true from hready)]
    exact ⟨rfl, hready, rfl, rfl, rfl, rfl, rfl, rfl⟩

theorem bip143_hash_cached (tx : Transaction) (n_in : ℕ) (hash_type : HashType) (amount : ℤ)
    (spent_outputs : Option (List TxOut)) (force : Bool) :
    bip143_hash script_code tx n_in hash_type amount
        ((some (new tx spent_outputs force)).filter fun c => c.bip143_segwit_ready) =
      bip143_hash script_code tx n_in hash_type amount none := by
  cases hready : (new tx spent_outputs force).bip143_segwit_ready with
  | false => rw [Option.filter_some, if_neg (by rw [hready]; decide)]
  | true =>
    obtain ⟨hprevouts, hsequence, houtputs⟩ := new_bip143 hready
    rw [Option.filter_some, if_pos hready]
    unfold bip143_hash hash_prevouts hash_sequence hash_outputs
    dsimp only
    rw [hprevouts, hsequence, houtputs]

theorem signature_hash_cached (tx : Transaction) (n_in : ℕ) (hash_type : HashType) (amount : ℤ)
    (sigversion : SigVersion) (spent_outputs : Option (List TxOut)) (force : Bool) :
    signature_hash script_code tx n_in hash_type amount sigversion (some (new tx spent_outputs force)) =
      signature_hash script_code tx n_in hash_type amount sigversion none := by
  unfold signature_hash
  rw [bip143_hash_cached, Option.filter_none]

def output_type (hash_type : UInt8) : UInt8 :=
  if hash_type = SIGHASH_DEFAULT then SIGHASH_ALL else hash_type &&& SIGHASH_OUTPUT_MASK

def signed_input (tx : Transaction) (spent : List TxOut) (n_in : ℕ) : List UInt8 :=
  match tx.inputs[n_in]?, spent[n_in]? with
  | some input, some out =>
    input.previous_output.txid.to_bytes ++ le 4 input.previous_output.vout ++ write_txout out ++ le 4 input.sequence
  | _, _ => []

def taproot_message (tx : Transaction) (spent : List TxOut) (n_in : ℕ) (hash_type : UInt8) (sigversion : SigVersion)
    (execdata : ExecutionData) : List UInt8 :=
  let anyone_can_pay := hash_type &&& SIGHASH_INPUT_MASK = SIGHASH_ANYONECANPAY
  [0, hash_type] ++ (le 4 tx.version ++ le 4 tx.lock_time ++
    (if anyone_can_pay then [] else
      prevouts_single_hash tx ++ spent_amounts_single_hash spent ++ spent_scripts_single_hash spent ++
        sequences_single_hash tx) ++
    (if output_type hash_type = SIGHASH_ALL then outputs_single_hash tx else [])) ++
    [(if sigversion = .Tapscript then 2 else 0) ||| if execdata.annex_present then 1 else 0] ++
    (if anyone_can_pay then signed_input tx spent n_in else le 4 n_in) ++
    (if execdata.annex_present then execdata.annex_hash.getD [] else []) ++
    (if output_type hash_type = SIGHASH_SINGLE then
      (tx.outputs[n_in]?.map fun output => sha256 (write_txout output)).getD [] else []) ++
    (if sigversion = .Tapscript then execdata.tapleaf_hash.getD [] ++ [0] ++ le 4 execdata.codeseparator_pos else [])

def taproot_digest (tx : Transaction) (spent : List TxOut) (n_in : ℕ) (hash_type : UInt8) (sigversion : SigVersion)
    (execdata : ExecutionData) : Option (List UInt8) :=
  if (hash_type ≤ 0x03 ∨ 0x81 ≤ hash_type ∧ hash_type ≤ 0x83) ∧
      (output_type hash_type = SIGHASH_SINGLE → n_in < tx.outputs.length) then
    some (tagged_hash TAPSIGHASH (taproot_message tx spent n_in hash_type sigversion execdata))
  else none

variable {checker : TransactionSignatureChecker} {spent : List TxOut} {sigversion : SigVersion}
  {execdata : ExecutionData}

section

variable (h : Supplied checker sigversion execdata)
include h

theorem Supplied.schnorr_annex :
    Interpreter.schnorr_annex execdata =
      some (if execdata.annex_present then execdata.annex_hash.getD [] else []) := by
  unfold Interpreter.schnorr_annex
  split
  · rename_i hpresent
    obtain ⟨hash, hhash⟩ := Option.ne_none_iff_exists'.mp (h.annex hpresent)
    rw [hhash]
    rfl
  · rfl

theorem Supplied.schnorr_leaf :
    Interpreter.schnorr_leaf sigversion execdata = some (if sigversion = .Tapscript then
      execdata.tapleaf_hash.getD [] ++ [0] ++ le 4 execdata.codeseparator_pos else []) := by
  unfold Interpreter.schnorr_leaf
  split
  · rename_i hversion
    obtain ⟨leaf, hleaf⟩ := Option.ne_none_iff_exists'.mp (h.leaf hversion)
    rw [hleaf]
    rfl
  · rfl

theorem Supplied.schnorr_single (hash_type : UInt8) :
    Interpreter.schnorr_output checker.tx checker.n_in hash_type execdata =
      if output_type hash_type = SIGHASH_SINGLE then
        checker.tx.outputs[checker.n_in]?.map fun output =>
          (sha256 (write_txout output), { execdata with output_hash := some (sha256 (write_txout output)) })
      else some ([], execdata) := by
  unfold Interpreter.schnorr_output
  change (if output_type hash_type = SIGHASH_SINGLE then _ else _) = _
  split
  · cases hout : checker.tx.outputs[checker.n_in]? with
    | none => rfl
    | some output =>
      have hkept : execdata.output_hash.getD (sha256 (write_txout output)) = sha256 (write_txout output) := by
        cases hhash : execdata.output_hash with
        | none => rfl
        | some hash =>
          obtain ⟨output', hout', rfl⟩ := h.output hash hhash
          rw [Option.some.inj (hout'.symm.trans hout)]
          rfl
      simp only [Option.map_some, hkept]
  · rfl

end

theorem TaprootReady.transaction_data (h : TaprootReady checker.tx spent checker.txdata) (hash_type : UInt8) :
    schnorr_transaction_data checker.tx hash_type checker.txdata =
      le 4 checker.tx.version ++ le 4 checker.tx.lock_time ++
        (if hash_type &&& SIGHASH_INPUT_MASK = SIGHASH_ANYONECANPAY then [] else
          prevouts_single_hash checker.tx ++ spent_amounts_single_hash spent ++ spent_scripts_single_hash spent ++
            sequences_single_hash checker.tx) ++
        (if output_type hash_type = SIGHASH_ALL then outputs_single_hash checker.tx else []) := by
  unfold schnorr_transaction_data output_type
  rw [h.prevouts, h.spent_amounts, h.spent_scripts, h.sequences, h.outputs]
  simp only [ne_eq, ite_not]

theorem TaprootReady.input_data (h : TaprootReady checker.tx spent checker.txdata) (hash_type : UInt8) :
    schnorr_input_data checker.tx checker.n_in hash_type checker.txdata =
      if hash_type &&& SIGHASH_INPUT_MASK = SIGHASH_ANYONECANPAY then signed_input checker.tx spent checker.n_in
      else le 4 checker.n_in := by
  obtain rfl := h.spent_outputs
  rfl

omit [Digests] in
theorem spend_type_eq (sigversion : SigVersion) :
    (if sigversion = .Tapscript then (1 : UInt8) else 0) <<< 1 = if sigversion = .Tapscript then 2 else 0 := by
  split <;> rfl

theorem prepared_digest (hready : TaprootReady checker.tx spent checker.txdata)
    (hs : Supplied checker sigversion execdata) (hash_type : UInt8) :
    (signature_hash_schnorr checker.tx checker.n_in hash_type sigversion checker.txdata execdata).1 =
      taproot_digest checker.tx spent checker.n_in hash_type sigversion execdata := by
  unfold signature_hash_schnorr taproot_digest
  rw [hready.bip341_taproot_ready, hready.spent_outputs_ready, if_neg (by decide), hs.schnorr_annex,
    hs.schnorr_single]
  by_cases hknown : hash_type ≤ 0x03 ∨ 0x81 ≤ hash_type ∧ hash_type ≤ 0x83
  · rw [if_neg (not_not.mpr hknown)]
    by_cases hsingle : output_type hash_type = SIGHASH_SINGLE
    · rw [if_pos hsingle]
      cases hout : checker.tx.outputs[checker.n_in]? with
      | none =>
        have hrefused : ¬((hash_type ≤ 0x03 ∨ 0x81 ≤ hash_type ∧ hash_type ≤ 0x83) ∧
            (output_type hash_type = SIGHASH_SINGLE → checker.n_in < checker.tx.outputs.length)) :=
          fun h => Nat.not_lt.mpr (List.getElem?_eq_none_iff.mp hout) (h.2 hsingle)
        rw [if_neg hrefused]
        rfl
      | some output =>
        have hvalid : (hash_type ≤ 0x03 ∨ 0x81 ≤ hash_type ∧ hash_type ≤ 0x83) ∧
            (output_type hash_type = SIGHASH_SINGLE → checker.n_in < checker.tx.outputs.length) :=
          ⟨hknown, fun _ => (List.getElem?_eq_some_iff.mp hout).1⟩
        have hleaf : Interpreter.schnorr_leaf sigversion
            { execdata with output_hash := some (sha256 (write_txout output)) } = _ := hs.schnorr_leaf
        rw [if_pos hvalid, Option.map_some]
        dsimp only
        rw [hleaf]
        rw [hready.transaction_data, hready.input_data, spend_type_eq]
        unfold taproot_message
        rw [if_pos hsingle, hout]
        rfl
    · have hvalid : (hash_type ≤ 0x03 ∨ 0x81 ≤ hash_type ∧ hash_type ≤ 0x83) ∧
          (output_type hash_type = SIGHASH_SINGLE → checker.n_in < checker.tx.outputs.length) :=
        ⟨hknown, fun h => absurd h hsingle⟩
      rw [if_neg hsingle, if_pos hvalid]
      dsimp only
      rw [hs.schnorr_leaf]
      rw [hready.transaction_data, hready.input_data, spend_type_eq]
      unfold taproot_message
      rw [if_neg hsingle]
  · rw [if_pos hknown, if_neg fun h => hknown h.1]

omit [Digests] in
theorem taproot_spk_of_program {txout : TxOut} {program : List UInt8}
    (h : witness_program txout.script_pubkey = some (1, program)) (hlen : program.length = WITNESS_V1_TAPROOT_SIZE) :
    is_taproot_spk txout = true := by
  unfold witness_program at h
  unfold is_taproot_spk
  cases hscript : txout.script_pubkey with
  | nil =>
    rw [hscript] at h
    cases h
  | cons op rest =>
    rw [hscript] at h
    by_cases hshort : (op :: rest).length < 4 ∨ 42 < (op :: rest).length
    · rw [if_pos hshort] at h
      cases h
    rw [if_neg hshort] at h
    simp only [List.getD_cons_zero] at h
    split at h
    · cases h
    rename_i version hversion
    split at h
    · cases h
    obtain ⟨rfl, rfl⟩ := Prod.mk.inj (Option.some.inj h)
    have hop : op = OP_1 := by
      split at hversion
      · cases hversion
      split at hversion
      · have hadd := congrArg (fun v => v + (OP_1 - 1)) (Option.some.inj hversion)
        rw [UInt8.sub_add_cancel] at hadd
        rw [hadd]
        rfl
      · cases hversion
    subst hop
    rw [List.length_drop, WITNESS_V1_TAPROOT_SIZE] at hlen
    simp only [List.head?_cons, beq_self_eq_true, Bool.and_true, beq_iff_eq]
    omega

variable [Secp256k1]

def noting_checks : Checking (List (TransactionSignatureChecker × Query)) := fun checker =>
  Prog.noting checker.answer fun query => (checker, query)

def asked (tx : Transaction) (spent_outputs : List TxOut) (flags : ScriptFlags) :
    List (TransactionSignatureChecker × Query) :=
  (check_scripts_with noting_checks tx spent_outputs flags []).2

theorem verify_inputs_noting (tx : Transaction) (spent_outputs : List TxOut) (txdata : PrecomputedTransactionData)
    (flags : ScriptFlags) (i : ℕ) (inputs : List TxIn) (log : List (TransactionSignatureChecker × Query)) :
    (verify_inputs noting_checks tx spent_outputs txdata flags i inputs log).1 =
      (verify_inputs (fun checker query (s : Unit) =>
        (checker.answer query, s)) tx spent_outputs txdata flags i inputs
        ()).1 := by
  induction inputs generalizing i log with
  | nil => rfl
  | cons input inputs ih =>
    rw [verify_inputs, verify_inputs]
    cases spent_outputs[i]? with
    | none => rfl
    | some out =>
      dsimp only
      generalize verify_script input.script_sig out.script_pubkey input.witness.reverse flags () = p
      let checker : TransactionSignatureChecker := ⟨tx, i, out.value, txdata⟩
      have hnoting : (p.run_state (noting_checks checker) log).1 = p.run checker.answer :=
        @Prog.run_state_of_answers Query Answer _ _ _ _ (fun _ _ => rfl) p log
      have hplain : (p.run_state (fun query (s : Unit) => (checker.answer query, s)) ()).1 = p.run checker.answer :=
        @Prog.run_state_of_answers Query Answer _ _ _ _ (fun _ _ => rfl) p ()
      cases hn : p.run_state (noting_checks checker) log with
      | mk result log' =>
        cases hp : p.run_state (fun query (s : Unit) => (checker.answer query, s)) () with
        | mk result' s =>
          rw [hn] at hnoting
          rw [hp] at hplain
          obtain rfl : result = result' := hnoting.trans hplain.symm
          cases result with
          | error e => rfl
          | ok _ => exact ih _ _

theorem asked_of_check (tx : Transaction) (spent_outputs : List TxOut) (flags : ScriptFlags) :
    check_scripts_with noting_checks tx spent_outputs flags [] =
      (check_input_scripts tx spent_outputs flags, asked tx spent_outputs flags) := by
  refine Prod.ext ?_ rfl
  unfold check_input_scripts check_scripts_with
  split
  · rfl
  · exact verify_inputs_noting _ _ _ _ _ _ _

theorem verify_inputs_asks {i : ℕ} (hin : tx.inputs.drop i = inputs)
    (log : List (TransactionSignatureChecker × Query)) :
    ∀ c ∈ (verify_inputs noting_checks tx spent_outputs (.new tx (some spent_outputs) false) flags i inputs log).2,
      c ∈ log ∨ c.1.tx = tx ∧ Prepared spent_outputs c.1 c.2 := by
  induction inputs generalizing i log with
  | nil => exact fun c hc => .inl hc
  | cons input inputs ih =>
    rw [verify_inputs]
    cases hout : spent_outputs[i]? with
    | none => exact fun c hc => .inl hc
    | some out =>
      dsimp only
      have hready : ∀ program, witness_program out.script_pubkey = some (1, program) →
          program.length = WITNESS_V1_TAPROOT_SIZE → input.witness.reverse ≠ [] →
            TaprootReady tx spent_outputs (new tx (some spent_outputs) false) := by
        intro program hprogram hlen hwitness
        apply new_taproot
        · rintro rfl
          cases hout
        · have hinput : tx.inputs[i]? = some input := by
            rw [← List.head?_drop, hin]
            rfl
          refine uses_taproot hinput (fun h => hwitness (by rw [h]; rfl)) ?_
          rw [Nat.zero_add, hout]
          exact taproot_spk_of_program hprogram hlen
      let checker : TransactionSignatureChecker := ⟨tx, i, out.value, new tx (some spent_outputs) false⟩
      have hasks := (@Verifying.verify_script _ _ checker spent_outputs _ _ hready input.script_sig flags).asks
        () trivial
      have hnoted := @Prog.noted_of_asks Query Answer _ _ _ checker.answer (fun query => (checker, query)) _ hasks log
      have hstep : ∀ c ∈ ((verify_script input.script_sig out.script_pubkey input.witness.reverse flags ()).run_state
          (noting_checks checker) log).2, c ∈ log ∨ c.1.tx = tx ∧ Prepared spent_outputs c.1 c.2 := by
        intro c hc
        rcases hnoted c hc with hc | ⟨query, hgood, rfl⟩
        · exact .inl hc
        · exact .inr ⟨rfl, hgood⟩
      have hin' : tx.inputs.drop (i + 1) = inputs := by
        rw [← List.tail_drop, hin]
        rfl
      split
      · rename_i log' hrun
        rw [hrun] at hstep
        intro c hc
        rcases ih hin' log' c hc with hc | hc
        · exact hstep c hc
        · exact .inr hc
      · rename_i e log' hrun
        rw [hrun] at hstep
        exact hstep

theorem asked_prepared {c : TransactionSignatureChecker × Query} (hc : c ∈ asked tx spent_outputs flags) :
    c.1.tx = tx ∧ Prepared spent_outputs c.1 c.2 := by
  unfold asked check_scripts_with at hc
  split at hc
  · cases hc
  · exact (verify_inputs_asks List.drop_zero [] c hc).resolve_left List.not_mem_nil

/-- A digest before taproot is the same with the precomputed hashes and without; and each Schnorr check that the
inputs' scripts come to has a cache that is ready, and the digest that the transaction and the outputs it spends
have. -/
theorem sighash_caches_transparent (tx : Transaction) (spent_outputs : List TxOut) :
    (∀ script_code n_in hash_type amount sigversion,
      signature_hash script_code tx n_in hash_type amount sigversion (some (new tx (some spent_outputs) false)) =
        signature_hash script_code tx n_in hash_type amount sigversion none) ∧
    ∀ flags, (check_scripts_with noting_checks tx spent_outputs flags []).1 =
      check_input_scripts tx spent_outputs flags ∧
      ∀ checker sig pubkey sigversion execdata,
        (checker, Query.check_schnorr_signature sig pubkey sigversion execdata) ∈ asked tx spent_outputs flags →
          (sigversion = .Tapscript ∨ sigversion = .Taproot) ∧ TaprootReady tx spent_outputs checker.txdata ∧
          ∀ hash_type,
            (signature_hash_schnorr checker.tx checker.n_in hash_type sigversion checker.txdata execdata).1 =
              taproot_digest tx spent_outputs checker.n_in hash_type sigversion execdata := by
  refine ⟨fun _ _ _ _ _ => signature_hash_cached _ _ _ _ _ _ _ _, fun flags => ⟨?_, ?_⟩⟩
  · rw [asked_of_check]
  · intro checker sig pubkey sigversion execdata hc
    obtain ⟨htx, hversion, hsupplied, hready⟩ := asked_prepared hc
    have hdigest := prepared_digest hready hsupplied
    rw [htx] at hready hdigest
    refine ⟨hversion, hready, fun hash_type => ?_⟩
    rw [htx]
    exact hdigest hash_type

end

end AvilaNode.Interpreter
