import AvilaNode.MiniscriptThresh

/-! The rules that `sanitize_type` asserts: the type of every expression keeps them. -/

namespace AvilaNode.Miniscript

/-- The assertions of `sanitize_type` on a type that has a base. -/
def asserts (e : MsType) : Bool :=
  let has (p : Property) := e.has_all (mst [p])
  ([mst [.K], mst [.V], mst [.B], mst [.W]].filter e.has_all).length == 1
    && !(has .z && has .o)
    && !(has .n && has .z)
    && !(has .n && has .W)
    && !(has .V && has .d)
    && (!has .K || has .u)
    && !(has .V && has .u)
    && !(has .e && has .f)
    && (!has .e || has .d)
    && !(has .V && has .e)
    && !(has .d && has .f)
    && (!has .V || has .f)
    && (!has .K || has .s)
    && (!has .z || has .m)

/-- The rules, with the one that carries `z` to `m`: what takes nothing and can be left unsatisfied is `e` and `s`. -/
def Ruled (t : MsType) : Prop :=
  (t.has .K → ¬t.has .V ∧ ¬t.has .B ∧ ¬t.has .W ∧ t.has .u ∧ t.has .s) ∧
    (t.has .V → ¬t.has .B ∧ ¬t.has .W ∧ ¬t.has .d ∧ ¬t.has .u ∧ ¬t.has .e ∧ t.has .f) ∧
    (t.has .W → ¬t.has .B ∧ ¬t.has .n) ∧ (t.has .z → ¬t.has .o ∧ ¬t.has .n ∧ t.has .m) ∧
    (t.has .f → ¬t.has .e ∧ ¬t.has .d) ∧ (t.has .e → t.has .d) ∧ (t.has .z → t.has .d → t.has .e ∧ t.has .s)

variable {ctx : MsContext} {k n : ℕ} {x y z : MsType} {fragment : Fragment}

def Based (t : MsType) : Prop := t.has .B ∨ t.has .V ∨ t.has .K ∨ t.has .W

theorem ruled_empty : Ruled .empty := by simp [Ruled]

theorem ruled_compute (hx : Ruled x) (hy : Ruled y) (hz : Ruled z) (hfragment : fragment ≠ .Thresh)
    (hbase : Based (compute_type fragment x y z [] k n ctx)) : Ruled (compute_type fragment x y z [] k n ctx) := by
  unfold Ruled at hx hy hz ⊢
  unfold Based at hbase
  cases fragment <;> simp +decide [compute_type, both_timelocks, either_timelocks, -List.mem_cons] at hbase hfragment ⊢ <;>
    (repeat' apply And.intro) <;> grind -linarith

theorem tally_args {ts : List MsType} {i : ℕ} {acc acc' : Tally} (h : tally k i acc ts = some acc')
    (hts : ∀ t ∈ ts, Ruled t) (hargs : acc'.args = 0) : acc.args = 0 ∧ acc'.all_e = acc.all_e ∧
      acc'.all_m = acc.all_m ∧ acc'.num_s = acc.num_s + ts.length := by
  induction ts generalizing i acc with
  | nil =>
    cases h
    exact ⟨hargs, rfl, rfl, rfl⟩
  | cons t ts ih =>
    obtain ⟨hall, h⟩ := tally_cons h
    have hd : t.has .d = true := by
      split at hall
      all_goals
        simp at hall
        exact hall.2.1
    obtain ⟨hzero, he, hm, hs⟩ := ih h fun a ha => hts a (List.mem_cons_of_mem _ ha)
    have ht := hts t List.mem_cons_self
    have hz : t.has .z = true ∧ acc.args = 0 := by
      by_cases htz : t.has .z = true
      · simpa [tally_sub, htz] using hzero
      · by_cases hto : t.has .o = true <;> simp [tally_sub, htz, hto] at hzero
    obtain ⟨hte, hts'⟩ := ht.2.2.2.2.2.2 hz.1 hd
    have htm := (ht.2.2.2.1 hz.1).2.2
    refine ⟨hz.2, ?_, ?_, ?_⟩
    · rw [he]
      simp [tally_sub, hte]
    · rw [hm]
      simp [tally_sub, htm]
    · rw [hs, List.length_cons]
      simp [tally_sub, hts']
      omega

theorem ruled_thresh {ts : List MsType} (hts : ∀ t ∈ ts, Ruled t) (hk : 1 ≤ k) (hn : k ≤ ts.length) :
    Ruled (thresh_type ts k ts.length) := by
  unfold thresh_type
  split
  · exact ruled_empty
  · rename_i acc hacc
    have htl {p : Property} (hp : p ∉ [Property.g, .h, .i, .j, .k]) : acc.acc_tl.has p = false :=
      tally_tl hacc hp (by simp only [List.mem_cons, not_or] at hp; simp [hp])
    have hargs (h0 : acc.args = 0) : acc.all_e = true ∧ acc.all_m = true ∧ acc.num_s = ts.length := by
      obtain ⟨-, he, hm, hs⟩ := tally_args hacc hts h0
      exact ⟨he, hm, by simpa using hs⟩
    have hlow : ts.length - k < ts.length := by omega
    refine ⟨?_, ?_, ?_, ?_, ?_, ?_, ?_⟩ <;> simp [htl] <;> grind -linarith

theorem ruled_sanitize {e : MsType} (h : Based e → Ruled e) : Ruled (sanitize_type e) := by
  by_cases hempty : sanitize_type e = .empty
  · rw [hempty]
    exact ruled_empty
  · have hbase := base_of_sanitize hempty
    have heq : sanitize_type e = e := by
      rcases hbase with hp | hp | hp | hp <;> exact sanitize_of_has hp
    rw [heq] at hbase ⊢
    exact h hbase

theorem Node.ruled (ctx : MsContext) (node : Node) (h : node.Formed) : Ruled (node.typ ctx) := by
  induction node using Node.induct with
  | h fragment k keys data subs ih =>
    rw [Node.Formed, Node.allFormed_iff] at h
    obtain ⟨hadmitted, hsubs⟩ := h
    have hall : ∀ t ∈ Node.types ctx subs, Ruled t := by
      rw [Node.types_eq]
      intro t ht
      obtain ⟨sub, hsub, rfl⟩ := List.mem_map.mp ht
      exact ih sub hsub (hsubs sub hsub)
    have hget (i : ℕ) : Ruled ((Node.types ctx subs).getD i .empty) := by
      rw [List.getD_eq_getElem?_getD]
      cases hi : (Node.types ctx subs)[i]? with
      | none => exact ruled_empty
      | some t => exact hall t (List.mem_of_getElem? hi)
    rw [Node.typ, calc_type]
    by_cases hthresh : fragment = .Thresh
    · subst hthresh
      have hlen : (Node.types ctx subs).length = subs.length := by rw [Node.types_eq, List.length_map]
      obtain ⟨hk, hn, -⟩ := hadmitted
      exact ruled_sanitize fun _ => ruled_thresh hall hk (hlen ▸ hn)
    · rw [if_neg hthresh]
      exact ruled_sanitize (ruled_compute (hget 0) (hget 1) (hget 2) hthresh)

/-- No assertion of `sanitize_type` fires on any expression. -/
theorem asserts_typ (ctx : MsContext) (node : Node) (h : node.Formed) (hvalid : node.typ ctx ≠ .empty) :
    asserts (node.typ ctx) = true := by
  have hruled := node.ruled ctx h
  have hbase : Based (node.typ ctx) := by
    cases node
    exact base_of_sanitize hvalid
  unfold Ruled at hruled
  unfold asserts
  rcases hbase with h | h | h | h <;> simp [h, List.filter] <;> grind -linarith

theorem asserts_typ_thresh : asserts ((Node.mk .Thresh 1 [] [] [.mk .Just0 0 [] [] []]).typ .P2wsh) = true :=
  asserts_typ .P2wsh _ ⟨⟨by decide, by decide, by decide⟩, ⟨rfl, trivial⟩, trivial⟩ (by decide +kernel)

end AvilaNode.Miniscript
