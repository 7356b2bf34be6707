import AvilaNode.AdviceStream
import AvilaNode.FlagsMonotone
import AvilaNode.SigBatchSound

/-! The advice that one node captures, consumed by another. -/

namespace AvilaNode.Interpreter

open OraclePrograms

section
variable [Digests] {σ τ : Type} {first : Checking σ} {second : Checking τ} {leads : σ → σ → Prop}
  {Rel : σ → τ → Prop} {final : σ}

theorem verify_inputs_leads (hrefl : ∀ s, leads s s) (htrans : ∀ s t u, leads s t → leads t u → leads s u)
    (hleads : ∀ checker q s, leads s (first checker q s).2) (tx : Transaction) (spent_outputs : List TxOut)
    (txdata : PrecomputedTransactionData) (flags : ScriptFlags) (i : ℕ) (inputs : List TxIn) (s : σ) :
    leads s (verify_inputs first tx spent_outputs txdata flags i inputs s).2 := by
  induction inputs generalizing i s with
  | nil => exact hrefl s
  | cons input inputs ih =>
    rw [verify_inputs]
    cases hout : spent_outputs[i]? with
    | none => exact hrefl s
    | some out =>
      simp only
      have hrun := @Prog.run_state_leads _ _ _ _ _ _ hrefl htrans (hleads ⟨tx, i, out.value, txdata⟩)
        (verify_script input.script_sig out.script_pubkey input.witness.reverse flags ()) s
      revert hrun
      generalize Prog.run_state (first ⟨tx, i, out.value, txdata⟩) _ s = ran
      obtain ⟨_ | _, s'⟩ := ran
      · exact id
      · exact fun h => htrans _ _ _ h (ih (i + 1) s')

theorem verify_inputs_lock (hrefl : ∀ s, leads s s) (htrans : ∀ s t u, leads s t → leads t u → leads s u)
    (hleads : ∀ checker q s, leads s (first checker q s).2)
    (hstep : ∀ checker q s t, Rel s t → leads (first checker q s).2 final →
      (second checker q t).1 = (first checker q s).1 ∧ Rel (first checker q s).2 (second checker q t).2)
    (tx : Transaction) (spent_outputs : List TxOut) (txdata : PrecomputedTransactionData) (flags : ScriptFlags)
    (i : ℕ)
    (inputs : List TxIn) (s : σ) (t : τ) (hrel : Rel s t)
    (hfinal : leads (verify_inputs first tx spent_outputs txdata flags i inputs s).2 final) :
    (verify_inputs second tx spent_outputs txdata flags i inputs t).1 =
        (verify_inputs first tx spent_outputs txdata flags i inputs s).1 ∧
      Rel (verify_inputs first tx spent_outputs txdata flags i inputs s).2
        (verify_inputs second tx spent_outputs txdata flags i inputs t).2 := by
  induction inputs generalizing i s t with
  | nil => exact ⟨rfl, hrel⟩
  | cons input inputs ih =>
    rw [verify_inputs] at hfinal ⊢
    rw [verify_inputs]
    cases hout : spent_outputs[i]? with
    | none => exact ⟨rfl, hrel⟩
    | some out =>
      simp only [hout] at hfinal ⊢
      have hlock := @Prog.run_state_lock _ _ _ _ _ _ _ (second ⟨tx, i, out.value, txdata⟩) _ final hrefl htrans
        (hleads ⟨tx, i, out.value, txdata⟩) (hstep ⟨tx, i, out.value, txdata⟩)
        (verify_script input.script_sig out.script_pubkey input.witness.reverse flags ()) s t hrel
      revert hfinal hlock
      generalize Prog.run_state (first ⟨tx, i, out.value, txdata⟩) _ s = ran
      generalize Prog.run_state (second ⟨tx, i, out.value, txdata⟩) _ t = ran'
      obtain ⟨r, s'⟩ := ran
      obtain ⟨r', t'⟩ := ran'
      intro hfinal hlock
      cases r with
      | error e =>
        obtain ⟨rfl, hrel'⟩ := hlock hfinal
        exact ⟨rfl, hrel'⟩
      | ok a =>
        have hmid := htrans _ _ _
          (verify_inputs_leads hrefl htrans hleads tx spent_outputs txdata flags (i + 1) inputs s') hfinal
        obtain ⟨rfl, hrel'⟩ := hlock hmid
        exact ih (i + 1) s' t' hrel' hfinal

theorem check_scripts_with_lock (hrefl : ∀ s, leads s s) (htrans : ∀ s t u, leads s t → leads t u → leads s u)
    (hleads : ∀ checker q s, leads s (first checker q s).2)
    (hstep : ∀ checker q s t, Rel s t → leads (first checker q s).2 final →
      (second checker q t).1 = (first checker q s).1 ∧ Rel (first checker q s).2 (second checker q t).2)
    (tx : Transaction) (spent_outputs : List TxOut) (flags : ScriptFlags) (s : σ) (t : τ) (hrel : Rel s t)
    (hfinal : leads (check_scripts_with first tx spent_outputs flags s).2 final) :
    (check_scripts_with second tx spent_outputs flags t).1 = (check_scripts_with first tx spent_outputs flags s).1 ∧
      Rel (check_scripts_with first tx spent_outputs flags s).2
        (check_scripts_with second tx spent_outputs flags t).2 := by
  unfold check_scripts_with at hfinal ⊢
  split_ifs at hfinal ⊢ with hcb
  · exact ⟨rfl, hrel⟩
  · exact verify_inputs_lock hrefl htrans hleads hstep tx spent_outputs _ flags 0 tx.inputs s t hrel hfinal

structure Note (σ : Type) where
  n_in : ℕ
  query : Query
  before : σ
  after : σ

def noting (checking : Checking σ) : Checking (σ × List (Note σ)) := fun checker q s =>
  ((checking checker q s.1).1, (checking checker q s.1).2,
    s.2 ++ [⟨checker.n_in, q, s.1, (checking checker q s.1).2⟩])

def notes (checking : Checking σ) (tx : Transaction) (spent_outputs : List TxOut) (flags : ScriptFlags) (s : σ) :
    List (Note σ) :=
  (check_scripts_with (noting checking) tx spent_outputs flags (s, [])).2.2

theorem noting_same (checking : Checking σ) (tx : Transaction) (spent_outputs : List TxOut) (flags : ScriptFlags)
    (s : σ) : (check_scripts_with (noting checking) tx spent_outputs flags (s, [])).1 =
        (check_scripts_with checking tx spent_outputs flags s).1 ∧
      (check_scripts_with (noting checking) tx spent_outputs flags (s, [])).2.1 =
        (check_scripts_with checking tx spent_outputs flags s).2 := by
  have h := @check_scripts_with_lock _ _ _ checking (noting checking) (fun _ _ => True) (fun s t => t.1 = s) s
    (fun _ => trivial) (fun _ _ _ _ _ => trivial) (fun _ _ _ => trivial)
    (fun checker q s t hrel _ => by
      cases hrel
      exact ⟨rfl, rfl⟩) tx spent_outputs flags s (s, []) rfl trivial
  exact h

end

end AvilaNode.Interpreter

namespace AvilaNode.AdviceStream

open Interpreter OraclePrograms SigBatch

/-- One question to the producer and the same one to the consumer, whose cursor is at the end of what the
producer had written, before the answer and after; the entry between, if any, is a sentinel or a record. -/
structure InStep (entries : List UInt8) (c : Note (List UInt8)) (a : Note Deferral) : Prop where
  n_in : c.n_in = a.n_in
  query : c.query = a.query
  before : c.before = entries.take a.before.cursor ∧ a.before.cursor = c.before.length
  after : c.after = entries.take a.after.cursor ∧ a.after.cursor = c.after.length
  entry : c.after = c.before ∨
    ∃ entry : List UInt8, (entry.length = 33 ∨ entry.length = 97) ∧ c.after = c.before ++ entry

structure Locked [Secp256k1] (entries : List UInt8) (tag : ℕ) (st : Deferral)
    (c : List UInt8 × List (Note (List UInt8)))
    (a : Deferral × List (Note Deferral)) : Prop where
  cursor : a.1.cursor = c.1.length
  notes : List.Forall₂ (InStep entries) c.2 a.2
  defers : Defers tag st a.1

section
variable [Digests] [Secp256k1] (Point : Type) [AddCommGroup Point] [Curve Point] [DecidableEq Point]

variable (checker : TransactionSignatureChecker) (tx : Transaction)

theorem capture_ecdsa (sig pubkey script_code : List UInt8) (sigversion : SigVersion) (out : List UInt8) :
    capture_checker Point checker (.check_ecdsa_signature sig pubkey script_code sigversion) out =
      (checker.check_ecdsa_signature sig pubkey script_code sigversion,
        if checker.passes_gates sig pubkey sigversion then
          out ++ check_entry Point sig.dropLast pubkey (checker.sighash (sig.getLastD 0) script_code sigversion)
        else out) := by
  simp only [capture_checker, TransactionSignatureChecker.check_ecdsa_signature, check_entry]
  cases checker.passes_gates sig pubkey sigversion <;> rfl

theorem capture_leads (q : Query) (out : List UInt8) :
    out <+: (capture_checker Point checker q out).2 := by
  cases q with
  | check_ecdsa_signature sig pubkey script_code sigversion =>
    rw [capture_ecdsa]
    split_ifs
    · exact List.prefix_append _ _
    · exact List.prefix_rfl
  | _ =>
    simp only [capture_checker]
    exact List.prefix_rfl

theorem capture_answer (q : Query) (out : List UInt8) :
    (capture_checker Point checker q out).1 = checker.answer q := by
  cases q with
  | check_ecdsa_signature sig pubkey script_code sigversion =>
    simp only [capture_ecdsa, TransactionSignatureChecker.answer]
  | _ => simp only [capture_checker]

variable (spent_outputs : List TxOut)

theorem capture_result (flags : ScriptFlags) (out : List UInt8) :
    (check_input_scripts_capture Point tx spent_outputs flags out).1 = check_input_scripts tx spent_outputs flags :=
  (@check_scripts_with_lock _ Unit _ (fun checker q s => (checker.answer q, s)) (capture_checker Point)
    (fun _ _ => True) (fun _ _ => True) () (fun _ => trivial)
    (fun _ _ _ _ _ => trivial) (fun _ _ _ => trivial)
    (fun checker q _ t _ _ => ⟨capture_answer Point checker q t, trivial⟩) tx spent_outputs flags () out trivial
    trivial).1

theorem noting_step {entries : List UInt8} (tag : ℕ) {st : Deferral} (checker : TransactionSignatureChecker)
    (q : Query)
    (c : List UInt8 × List (Note (List UInt8))) (a : Deferral × List (Note Deferral)) (h : Locked entries tag st c a)
    (hentries : (noting (capture_checker Point) checker q c).2.1 <+: entries) :
    (noting (deferred_checker entries tag) checker q a).1 = (noting (capture_checker Point) checker q c).1 ∧
      Locked entries tag st (noting (capture_checker Point) checker q c).2
        (noting (deferred_checker entries tag) checker q a).2 := by
  obtain ⟨c, cs⟩ := c
  obtain ⟨a, as⟩ := a
  have hcursor : a.cursor = c.length := h.cursor
  have hbefore : c <+: entries := (capture_leads Point checker q c).trans hentries
  have htake {part : List UInt8} (hpart : part <+: entries) : part = entries.take part.length :=
    List.prefix_iff_eq_take.mp hpart
  -- a question without an entry
  have hquiet (hc : (capture_checker Point checker q c).2 = c)
      (ha : deferred_checker entries tag checker q a = ((capture_checker Point checker q c).1, a)) :
      (noting (deferred_checker entries tag) checker q (a, as)).1 =
          (noting (capture_checker Point) checker q (c, cs)).1 ∧
        Locked entries tag st (noting (capture_checker Point) checker q (c, cs)).2
          (noting (deferred_checker entries tag) checker q (a, as)).2 := by
    simp only [noting, hc, ha]
    refine ⟨trivial, hcursor, List.rel_append h.notes (.cons ?_ .nil), h.defers⟩
    have hat : c = entries.take a.cursor ∧ a.cursor = c.length := ⟨hcursor ▸ htake hbefore, hcursor⟩
    exact ⟨rfl, rfl, hat, hat, Or.inl rfl⟩
  cases q with
  | check_ecdsa_signature sig pubkey script_code sigversion =>
    cases hgates : checker.passes_gates sig pubkey sigversion with
    | false =>
      apply hquiet
      · simp [capture_ecdsa, hgates]
      · simp [deferred_checker, capture_ecdsa, TransactionSignatureChecker.check_ecdsa_signature, hgates]
    | true =>
      have hcapture := capture_ecdsa Point checker sig pubkey script_code sigversion c
      rw [if_pos hgates] at hcapture
      simp only [noting, hcapture] at hentries ⊢
      obtain ⟨rest, hrest⟩ := hentries
      have hspec := check_deferred_spec tag Point sig.dropLast pubkey
        (checker.sighash (sig.getLastD 0) script_code sigversion) c rest hcursor
      rw [hrest] at hspec
      have hdeferred : deferred_checker entries tag checker
        (.check_ecdsa_signature sig pubkey script_code sigversion) a =
          check_deferred entries tag sig.dropLast pubkey
            (checker.sighash (sig.getLastD 0) script_code sigversion) a := by
        simp [deferred_checker, hgates]
      obtain ⟨hanswer, hafter, hdefers⟩ := hspec
      simp only [hdeferred]
      refine ⟨?_, hafter, List.rel_append h.notes (.cons ?_ .nil), h.defers.trans hdefers⟩
      · rw [hanswer, TransactionSignatureChecker.check_ecdsa_signature, hgates, Bool.true_and]
      · refine ⟨rfl, rfl, ⟨hcursor ▸ htake hbefore, hcursor⟩, ⟨?_, hafter⟩, Or.inr ⟨_, ?_, rfl⟩⟩
        · rw [hafter]
          exact htake ⟨rest, hrest⟩
        · exact check_entry_length Point _ _ _
  | _ => exact hquiet (by simp only [capture_checker]) (by simp only [deferred_checker, capture_checker])

/-- The consumer of a captured stream answers what ordinary checking answers, question by question with the
producer, to the end of the stream. -/
theorem advised_locked (flags : ScriptFlags) (tag : ℕ) (st : Deferral) :
    let entries := (check_input_scripts_capture Point tx spent_outputs flags []).2
    let advised := check_input_scripts_advised tx spent_outputs flags entries tag st
    advised.1 = check_input_scripts tx spent_outputs flags ∧ advised.2.cursor = entries.length ∧
      Defers tag st advised.2 ∧
      List.Forall₂ (InStep entries) (notes (capture_checker Point) tx spent_outputs flags [])
        (notes (deferred_checker entries tag) tx spent_outputs flags { st with cursor := 0 }) := by
  intro entries advised
  have hcapture := noting_same (capture_checker Point) tx spent_outputs flags []
  have hadvised := noting_same (deferred_checker entries tag) tx spent_outputs flags { st with cursor := 0 }
  have hlock := @check_scripts_with_lock _ _ _ _ (noting (deferred_checker entries tag)) (fun s s' => s.1 <+: s'.1)
    (Locked entries tag st) (entries, []) (fun s => List.prefix_rfl) (fun _ _ _ => List.IsPrefix.trans)
    (fun checker q s => capture_leads Point checker q s.1)
    (fun checker q s t h hfinal => noting_step Point tag checker q s t h hfinal) tx spent_outputs flags ([], [])
    ({ st with cursor := 0 }, []) ⟨rfl, .nil, Defers.none rfl rfl⟩ (hcapture.2 ▸ List.prefix_rfl)
  obtain ⟨hresult, hcursor, hnotes, hdefers⟩ := hlock
  rw [hadvised.1, hcapture.1] at hresult
  rw [hadvised.2, hcapture.2] at hcursor
  rw [hadvised.2] at hdefers
  exact ⟨hresult.trans (capture_result Point tx spent_outputs flags []), hcursor, hdefers, hnotes⟩

theorem advice_lock_step {tx : Transaction} {spent_outputs : List TxOut} {flags : ScriptFlags}
    (h : check_input_scripts tx spent_outputs flags = .ok ()) (tag : ℕ) (st : Deferral) :
    let captured := check_input_scripts_capture Point tx spent_outputs flags []
    let advised := check_input_scripts_advised tx spent_outputs flags captured.2 tag st
    captured.1 = .ok () ∧ advised.1 = .ok () ∧ advised.2.cursor = captured.2.length ∧ Defers tag st advised.2 ∧
      List.Forall₂ (InStep captured.2) (notes (capture_checker Point) tx spent_outputs flags [])
        (notes (deferred_checker captured.2 tag) tx spent_outputs flags { st with cursor := 0 }) := by
  obtain ⟨hresult, hcursor, hdefers, hnotes⟩ := advised_locked Point tx spent_outputs flags tag st
  exact ⟨(capture_result Point tx spent_outputs flags []).trans h, hresult.trans h, hcursor, hdefers, hnotes⟩

end

end AvilaNode.AdviceStream

namespace AvilaNode.SigBatch

def generator_x : U256 := 0x79be667ef9dcbbac55a06295ce870b07029bfcdb2dce28d959f2815b16f81798#256

def generator_y : U256 := 0x483ada7726a3c4655da4fbfc0e1108a8fd17b448a68554199c47d08ffb10d4b8#256

def curve_x (p : Scalar) : U256 := Equiv.swap 1 generator_x (line_x p)

def curve_y (p : Scalar) : U256 :=
  if p = 1 then generator_y
  else if p = -1 then FIELD_P - generator_y
  else line_y p

def curve_decompress (x : U256) (odd : Bool) : Option Scalar := line_decompress (Equiv.swap 1 generator_x x) odd

theorem curve_y_odd (p : Scalar) : (curve_y p).getLsbD 0 = (line_y p).getLsbD 0 := by
  unfold curve_y
  split_ifs with h h'
  · rw [h]
    decide
  · rw [h']
    decide
  · rfl

theorem curve_decompress_eq_some {x : U256} {odd : Bool} {p : Scalar} :
    curve_decompress x odd = some p ↔ p ≠ 0 ∧ curve_x p = x ∧ (curve_y p).getLsbD 0 = odd := by
  rw [curve_decompress, line_decompress_eq_some, curve_y_odd, curve_x]
  have hswap : line_x p = Equiv.swap 1 generator_x x ↔ Equiv.swap 1 generator_x (line_x p) = x := by
    rw [← Equiv.symm_apply_eq, Equiv.symm_swap]
  rw [hswap]

theorem curve_x_lt {p : Scalar} (hp : p ≠ 0) : curve_x p < FIELD_P := by
  have hline : line_x p < FIELD_P := line.x_lt p hp
  rw [curve_x, Equiv.swap_apply_def]
  split_ifs
  · decide
  · decide
  · exact hline

theorem order_smul_scalar (p : Scalar) : ORDER.toNat • p = 0 := line.order_smul p

abbrev generator_curve : Curve Scalar where
  GENERATOR := 1
  x := curve_x
  y := curve_y
  from_coordinates x y := (curve_decompress x (y.getLsbD 0)).filter fun p => curve_y p == y
  decompress := curve_decompress
  order_smul := order_smul_scalar
  x_lt _ := curve_x_lt
  from_coordinates_eq_some := by
    intro x' y' p
    rw [Option.filter_eq_some_iff, curve_decompress_eq_some, beq_iff_eq]
    constructor
    · rintro ⟨⟨hne, hx, -⟩, hy⟩
      exact ⟨hne, hx, hy⟩
    · rintro ⟨hne, hx, rfl⟩
      exact ⟨⟨hne, hx, rfl⟩, rfl⟩
  decompress_eq_some := curve_decompress_eq_some

end AvilaNode.SigBatch

namespace AvilaNode.AdviceStream

open Interpreter SigBatch

section

attribute [local instance] Digests.identity generator_curve

def one_digest : BitVec 256 := of_be_bytes (1 :: List.replicate 31 0)

def one_sig : BitVec 256 × BitVec 256 := (generator_x, one_digest + generator_x)

def one_der : List UInt8 :=
  [0x30, 0x44, 0x02, 0x20] ++ Hash256.to_bytes one_sig.1 ++ [0x02, 0x20] ++ Hash256.to_bytes one_sig.2

def one_key : List UInt8 := 0x02 :: Hash256.to_bytes generator_x

abbrev one_signature : Secp256k1 where
  PublicKey := Unit
  Signature := BitVec 256 × BitVec 256
  from_byte_array_compressed bytes := if bytes = one_key then some () else none
  from_byte_array_uncompressed _ := none
  from_der_lax bytes := if bytes = one_der then some one_sig else none
  from_compact := some
  serialize_compact := id
  normalize_s := id
  verify sig digest _ := decide (sig = one_sig ∧ digest = one_digest)
  verify_schnorr _ _ _ := false
  add_tweak _ _ := none
  compressed_of_uncompressed _ h := nomatch h
  serialize_normalize _ := rfl
  from_compact_serialize _ := rfl

attribute [local instance] one_signature

def single_spend : Transaction where
  version := 1
  inputs := [⟨⟨1, 0⟩, [], 0xffffffff, []⟩, ⟨⟨2, 0⟩, 0x47 :: (one_der ++ [SIGHASH_SINGLE]), 0xffffffff, []⟩]
  outputs := [⟨5, [OP_1]⟩]
  lock_time := 0

def single_outputs : List TxOut := [⟨3, [OP_1]⟩, ⟨3, 0x21 :: (one_key ++ [OP_CHECKSIG])⟩]

theorem advice_lock_step_single :
    let captured := check_input_scripts_capture Scalar single_spend single_outputs P2SH []
    let advised := check_input_scripts_advised single_spend single_outputs P2SH captured.2 7 ⟨0, [], [], (0, 0)⟩
    captured.1 = .ok () ∧ advised.1 = .ok () ∧ advised.2.cursor = captured.2.length ∧
      Defers 7 ⟨0, [], [], (0, 0)⟩ advised.2 ∧
      List.Forall₂ (InStep captured.2) (notes (capture_checker Scalar) single_spend single_outputs P2SH [])
        (notes (deferred_checker captured.2 7) single_spend single_outputs P2SH ⟨0, [], [], (0, 0)⟩) :=
  advice_lock_step Scalar (by decide) 7 ⟨0, [], [], (0, 0)⟩

end

end AvilaNode.AdviceStream
