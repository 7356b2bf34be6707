import AvilaNode.ScriptSafety

/-! What `find_and_delete` cuts out of a script code: every match its walk comes to, and nothing else. -/

namespace AvilaNode.Interpreter

open Relation

/-- One step of the walk: past a match, else past an instruction. -/
def Advance (script b : List UInt8) (p q : ℕ) : Prop :=
  (b <+: script.drop p ∧ q = p + b.length) ∨ (¬b <+: script.drop p ∧ ∃ op, get_op script p = (some op, q))

/-- The bytes from `pc` on without the `n` bytes at each of `cuts`. -/
def cut_out (script : List UInt8) (n : ℕ) : ℕ → List ℕ → List UInt8
  | pc, [] => script.drop pc
  | pc, p :: cuts => (script.drop pc).take (p - pc) ++ cut_out script n (p + n) cuts

/-- `cuts` are the matches of a walk from `pc` on, none over another. -/
structure Cuts (script b : List UInt8) (pc : ℕ) (cuts : List ℕ) : Prop where
  apart : cuts.Pairwise fun p q => p + b.length ≤ q
  mem_iff : ∀ p, p ∈ cuts ↔ ReflTransGen (Advance script b) pc p ∧ b <+: script.drop p

variable {script b : List UInt8} {pc pc2 next p q n : ℕ} {cuts rest : List ℕ}

theorem match_iff :
    (b.length ≤ script.length - pc ∧ (script.drop pc).take b.length = b) ↔ b <+: script.drop pc := by
  rw [List.prefix_iff_eq_take, ← List.length_drop]
  constructor
  · rintro ⟨_, h⟩
    exact h.symm
  · intro h
    refine ⟨?_, h.symm⟩
    rw [h, List.length_take]
    exact Nat.min_le_right _ _

theorem le_of_match (hb : b ≠ []) (h : b <+: script.drop pc) : pc + b.length ≤ script.length := by
  have hlen := h.length_le
  have hpos := List.length_pos_iff.mpr hb
  rw [List.length_drop] at hlen
  omega

theorem Advance.le (h : Advance script b p q) : p ≤ q := by
  obtain ⟨_, rfl⟩ | ⟨_, op, hop⟩ := h
  · exact Nat.le_add_right _ _
  · exact (get_op_bounds hop).1.le

theorem le_of_walk (h : ReflTransGen (Advance script b) p q) : p ≤ q := by
  induction h with
  | refl => exact le_rfl
  | tail _ hstep ih => exact ih.trans hstep.le

theorem Cuts.le (h : Cuts script b pc cuts) (hp : p ∈ cuts) : pc ≤ p := le_of_walk ((h.mem_iff p).mp hp).1

theorem Cuts.of_match (hmatch : b <+: script.drop pc) (h : Cuts script b (pc + b.length) cuts) :
    Cuts script b pc (pc :: cuts) where
  apart := List.pairwise_cons.mpr ⟨fun _ hq => h.le hq, h.apart⟩
  mem_iff p := by
    rw [List.mem_cons, h.mem_iff]
    constructor
    · rintro (rfl | ⟨hwalk, hp⟩)
      · exact ⟨.refl, hmatch⟩
      · exact ⟨.head (Or.inl ⟨hmatch, rfl⟩) hwalk, hp⟩
    · rintro ⟨hwalk, hp⟩
      obtain rfl | ⟨q, ⟨_, rfl⟩ | ⟨hno, _⟩, hwalk⟩ := hwalk.cases_head
      · exact Or.inl rfl
      · exact Or.inr ⟨hwalk, hp⟩
      · exact absurd hmatch hno

theorem Cuts.of_read {op : UInt8 × List UInt8} (hno : ¬b <+: script.drop pc) (hop : get_op script pc = (some op, next))
    (h : Cuts script b next cuts) : Cuts script b pc cuts where
  apart := h.apart
  mem_iff p := by
    rw [h.mem_iff]
    refine and_congr_left fun hp => ⟨.head (Or.inr ⟨hno, op, hop⟩), fun hwalk => ?_⟩
    obtain rfl | ⟨q, ⟨hmatch, _⟩ | ⟨_, op', hop'⟩, hwalk⟩ := hwalk.cases_head
    · exact absurd hp hno
    · exact absurd hmatch hno
    · cases hop.symm.trans hop'
      exact hwalk

theorem Cuts.of_stop (hno : ¬b <+: script.drop pc) (hop : get_op script pc = (none, next)) :
    Cuts script b pc [] where
  apart := .nil
  mem_iff p := by
    refine iff_of_false List.not_mem_nil fun ⟨hwalk, hp⟩ => ?_
    obtain rfl | ⟨q, ⟨hmatch, _⟩ | ⟨_, op, hop'⟩, _⟩ := hwalk.cases_head
    · exact hno hp
    · exact hno hmatch
    · cases hop.symm.trans hop'

theorem cut_out_skip (hpc : pc2 ≤ pc) (hcuts : ∀ p ∈ cuts, pc ≤ p) :
    cut_out script n pc2 cuts = (script.drop pc2).take (pc - pc2) ++ cut_out script n pc cuts := by
  have hdrop : script.drop pc = (script.drop pc2).drop (pc - pc2) := by
    rw [List.drop_drop, Nat.add_sub_cancel' hpc]
  cases cuts with
  | nil => rw [cut_out, cut_out, hdrop, List.take_append_drop]
  | cons p cuts =>
    have hp := hcuts p List.mem_cons_self
    rw [cut_out, cut_out, ← List.append_assoc, hdrop, ← List.take_add]
    congr 3
    omega

variable {fuel : ℕ}

theorem skip_matches_cuts (found : ℕ) (hb : b ≠ []) (hpc : pc ≤ script.length) (hfuel : script.length < pc + fuel) :
    ∃ cuts stop, skip_matches script b fuel pc found = (stop, found + cuts.length) ∧
      ¬b <+: script.drop stop ∧ pc ≤ stop ∧ stop ≤ script.length ∧
      ∀ rest, Cuts script b stop rest → Cuts script b pc (cuts ++ rest) ∧
        cut_out script b.length pc (cuts ++ rest) = cut_out script b.length stop rest := by
  induction fuel generalizing pc found with
  | zero => omega
  | succ fuel ih =>
    simp only [skip_matches, match_iff]
    by_cases hmatch : b <+: script.drop pc
    · have hpos := List.length_pos_iff.mpr hb
      obtain ⟨cuts, stop, hskip, hno, hle, hstop, hrest⟩ := ih (found + 1) (le_of_match hb hmatch) (by omega)
      rw [if_pos hmatch]
      refine ⟨pc :: cuts, stop, ?_, hno, by omega, hstop, fun rest h => ?_⟩
      · rw [hskip, List.length_cons, Nat.add_assoc, Nat.add_comm 1]
      · obtain ⟨hcuts, hout⟩ := hrest rest h
        refine ⟨hcuts.of_match hmatch, ?_⟩
        rw [List.cons_append, cut_out, hout, Nat.sub_self, List.take_zero, List.nil_append]
    · rw [if_neg hmatch]
      exact ⟨[], pc, rfl, hmatch, le_rfl, hpc, fun rest h => ⟨h, rfl⟩⟩

theorem find_and_delete_loop_cuts (result : List UInt8) (found : ℕ) (hb : b ≠ []) (hle : pc2 ≤ pc)
    (hpc : pc ≤ script.length) (hfuel : script.length < pc + fuel) :
    ∃ cuts result' stop, find_and_delete_loop script b fuel result found pc pc2 = (result', found + cuts.length, stop) ∧
      (get_op script stop).1 = none ∧ Cuts script b pc cuts ∧
      result' ++ script.drop stop = result ++ cut_out script b.length pc2 cuts := by
  induction fuel generalizing pc pc2 found result with
  | zero => omega
  | succ fuel ih =>
    obtain ⟨cuts, stop, hskip, hno, hstop, hend, hrest⟩ :=
      skip_matches_cuts found hb hpc (show script.length < pc + (script.length + 1) by omega)
    have hout (rest : List ℕ) (h : Cuts script b stop rest) :
        cut_out script b.length pc2 (cuts ++ rest) =
          (script.drop pc2).take (pc - pc2) ++ cut_out script b.length stop rest := by
      rw [cut_out_skip hle fun p hp => (hrest rest h).1.le hp, (hrest rest h).2]
    unfold find_and_delete_loop
    simp only [hskip]
    cases hop : get_op script stop with
    | mk op next =>
    cases op with
    | none =>
      have hcuts := Cuts.of_stop hno hop
      exact ⟨cuts ++ [], _, _, by rw [List.append_nil], by rw [hop], (hrest [] hcuts).1, by
        rw [hout [] hcuts, List.append_assoc, cut_out]⟩
    | some op =>
      obtain ⟨hlt, hnext⟩ := get_op_bounds hop
      obtain ⟨more, result', last, hloop, hlast, hmore, hresult⟩ :=
        ih (result ++ (script.drop pc2).take (pc - pc2)) (found + cuts.length) hlt.le hnext (by omega)
      have hcuts := Cuts.of_read hno hop hmore
      refine ⟨cuts ++ more, result', last, ?_, hlast, (hrest more hcuts).1, ?_⟩
      · dsimp only
        rw [hloop, List.length_append, Nat.add_assoc]
      · rw [hresult, hout more hcuts, List.append_assoc]

theorem cut_out_length (h : cuts.Pairwise fun p q => p + n ≤ q)
    (hcuts : ∀ p ∈ cuts, pc ≤ p ∧ p + n ≤ script.length) :
    (cut_out script n pc cuts).length + cuts.length * n = script.length - pc := by
  induction cuts generalizing pc with
  | nil => simp [cut_out]
  | cons p cuts ih =>
    obtain ⟨hpc, hp⟩ := hcuts p List.mem_cons_self
    obtain ⟨hfirst, h⟩ := List.pairwise_cons.mp h
    have hlen := ih h fun q hq => ⟨hfirst q hq, (hcuts q (List.mem_cons_of_mem p hq)).2⟩
    rw [cut_out, List.length_append, List.length_take, List.length_drop, List.length_cons, Nat.add_one_mul]
    omega

/-- The matches that the walk comes to are cut out one by one, and the walk ends where no instruction is left. -/
theorem find_and_delete_cuts (script : Script) (hb : b ≠ []) :
    ∃ cuts : List ℕ, cuts.Pairwise (fun p q => p + b.length ≤ q) ∧
      (∀ p, p ∈ cuts ↔ ReflTransGen (Advance script b) 0 p ∧ b <+: script.drop p) ∧
      find_and_delete script b = (cut_out script b.length 0 cuts, cuts.length) ∧
      (find_and_delete script b).1.length = script.length - cuts.length * b.length ∧
      ((find_and_delete script b).2 = 0 → (find_and_delete script b).1 = script) ∧
      (get_op script (find_and_delete_loop script b (script.length + 1) [] 0 0 0).2.2).1 = none := by
  obtain ⟨cuts, result, stop, hloop, hstop, hcuts, hresult⟩ :=
    find_and_delete_loop_cuts [] 0 hb (Nat.le_refl 0) (Nat.zero_le script.length)
      (show script.length < 0 + (script.length + 1) by omega)
  have hdelete : find_and_delete script b = (cut_out script b.length 0 cuts, cuts.length) := by
    rw [find_and_delete, if_neg (by simpa using hb), hloop]
    dsimp only
    rw [Nat.zero_add]
    split
    · rw [hresult, List.nil_append]
    · next hnone =>
      obtain rfl := List.length_eq_zero_iff.mp (Nat.eq_zero_of_not_pos hnone)
      rfl
  refine ⟨cuts, hcuts.apart, hcuts.mem_iff, hdelete, ?_, ?_, by rw [hloop]; exact hstop⟩
  · have hlen := cut_out_length hcuts.apart fun p hp =>
      ⟨Nat.zero_le p, le_of_match hb ((hcuts.mem_iff p).mp hp).2⟩
    rw [hdelete]
    dsimp only
    omega
  · rw [hdelete]
    intro hnone
    obtain rfl := List.length_eq_zero_iff.mp hnone
    rfl

/-- The second match stands in what the instruction at `0` pushes. -/
theorem find_and_delete_cuts_pushed :
    ∃ cuts : List ℕ, cuts.Pairwise (fun p q => p + 2 ≤ q) ∧
      find_and_delete [2, 7, 2, 7, OP_1] [2, 7] = (cut_out [2, 7, 2, 7, OP_1] 2 0 cuts, cuts.length) := by
  obtain ⟨cuts, hapart, _, hcut, _⟩ := find_and_delete_cuts [2, 7, 2, 7, OP_1] (List.cons_ne_nil 2 [7])
  exact ⟨cuts, hapart, hcut⟩

end AvilaNode.Interpreter
