import AvilaNode.SnapshotStream
import Mathlib.Tactic.Linarith

/-! A pass over blocks is a walk over the groups, unless a group waits for too many bytes. -/

namespace AvilaNode.Snapshot

open ByteStrings ByteReader

variable [PublicKeys]

structure Placed where
  off : ℕ
  len : ℕ
  group : Group
deriving DecidableEq, Repr

inductive Walk (data : List UInt8) (base_height : ℕ) : ℕ → List Placed → ℕ → Prop
  | nil {off : ℕ} (h : off ≤ data.length) : Walk data base_height off [] off
  | cons {off : ℕ} {p : Placed} {gs : List Placed} {stop : ℕ} (hoff : p.off = off)
    (h : window_group base_height (data.drop off) = .ok (p.group, p.len))
    (hw : Walk data base_height (off + p.len) gs stop) : Walk data base_height off (p :: gs) stop

section Groups

variable {base_height len : ℕ} {window data : List UInt8} {g : Group}

theorem window_group_ok : window_group base_height window = .ok (g, len) ↔
      ∃ rest, group base_height window = .ok (g, rest) ∧ len = window.length - rest.length := by
  rw [window_group]
  cases group base_height window with
  | error e => simp [Except.map]
  | ok found =>
    obtain ⟨g', rest⟩ := found
    simp only [Except.map, Except.ok.injEq, Prod.mk.injEq]
    constructor
    · rintro ⟨rfl, rfl⟩
      exact ⟨rest, ⟨rfl, rfl⟩, rfl⟩
    · rintro ⟨rest', ⟨rfl, rfl⟩, rfl⟩
      exact ⟨rfl, rfl⟩

theorem window_group_error {e : PErr} :
    window_group base_height window = .error e ↔ group base_height window = .error e := by
  rw [window_group]
  cases group base_height window <;> simp [Except.map]

omit [PublicKeys] in
theorem take_ok {n : ℕ} {bytes rest : List UInt8} {a : List UInt8} (h : take n bytes = .ok (a, rest)) :
    bytes.length = n + rest.length ∧ a.length = n := by
  rw [take] at h
  split_ifs at h with hn
  obtain ⟨rfl, rfl⟩ := Prod.mk.inj (Except.ok.inj h)
  rw [List.length_drop, List.length_take]
  omega

theorem group_ok {rest : List UInt8} (h : group base_height window = .ok (g, rest)) : rest.length + 33 ≤
    window.length := by
  obtain ⟨txid, after, htake, h⟩ := bind_eq_ok.mp h
  obtain ⟨n, middle, hcompact, hrest⟩ := bind_eq_ok.mp h
  obtain ⟨tag, last, htag, hwide⟩ := bind_eq_ok.mp hcompact
  have hlen := (take_ok htake).1
  have hbyte : last.length + 1 = after.length := by
    cases after with
    | nil => cases htag
    | cons c after =>
      cases htag
      rfl
  have hmiddle : middle.length ≤ last.length :=
    Settled.length_le ((Settled.pure _).ite (Settled.bind
      (show Settled PErr.Short (Snapshot.wide tag) from (canonical_settled _ _).ite ((canonical_settled _ _).ite
        (canonical_settled _ _))) fun v => (bad_settled _).ite (Settled.pure _))) hwide
  have hend : rest.length ≤ middle.length :=
    Settled.length_le ((bad_settled _).ite ((group_coins_settled _ _ _ _ _ _ _).bind fun _ => Settled.pure _)) hrest
  omega

theorem window_group_len (h : window_group base_height window = .ok (g, len)) : 33 ≤ len ∧ len ≤ window.length := by
  obtain ⟨rest, hgroup, rfl⟩ := window_group_ok.mp h
  have hle := group_ok hgroup
  omega

theorem window_group_empty (base_height : ℕ) : window_group base_height [] = .error .Short := rfl

theorem window_group_held (hw : window <+: data) (h : window_group base_height data = .ok (g, len))
    (hlen : len ≤ window.length) :
    window_group base_height window = .ok (g, len) := by
  obtain ⟨rest, hgroup, rfl⟩ := window_group_ok.mp h
  refine window_group_ok.mpr ⟨_, (group_settled base_height).window hgroup hw hlen, ?_⟩
  rw [List.length_drop]
  omega

theorem window_group_whole (hw : window <+: data) (h : window_group base_height window = .ok (g, len)) :
    window_group base_height data = .ok (g, len) := by
  obtain ⟨tail, rfl⟩ := hw
  obtain ⟨rest, hgroup, rfl⟩ := window_group_ok.mp h
  refine window_group_ok.mpr ⟨_, (group_settled base_height).whole hgroup, ?_⟩
  rw [List.length_append, List.length_append, Nat.add_sub_add_right]

theorem window_group_bad {m : String} (hw : window <+: data)
    (h : window_group base_height window = .error (.Bad m)) : window_group base_height data = .error (.Bad m) := by
  obtain ⟨tail, rfl⟩ := hw
  exact window_group_error.mpr ((group_settled base_height).fails (window_group_error.mp h) (by simp) tail)

end Groups

variable {p : Placed}

namespace Walk

variable {data : List UInt8} {base_height : ℕ} {a b c : ℕ} {gs : List Placed}

theorem le (h : Walk data base_height a gs b) : a ≤ b ∧ b ≤ data.length := by
  induction h with
  | nil h => exact ⟨le_rfl, h⟩
  | cons _ h _ ih => exact ⟨by omega, ih.2⟩

theorem append {more : List Placed} (h : Walk data base_height a gs b) (hmore : Walk data base_height b more c) :
    Walk data base_height a (gs ++ more) c := by
  induction h with
  | nil _ => exact hmore
  | cons hoff h _ ih => exact .cons hoff h (ih hmore)

theorem split {front back : List Placed} (h : Walk data base_height a (front ++ back) b) :
    ∃ c, Walk data base_height a front c ∧ Walk data base_height c back b := by
  induction front generalizing a with
  | nil => exact ⟨a, .nil (h.le.1.trans h.le.2), h⟩
  | cons p front ih =>
    cases h with
    | cons hoff h hw =>
      obtain ⟨c, hfront, hback⟩ := ih hw
      exact ⟨c, .cons hoff h hfront, hback⟩

theorem nil_eq (h : Walk data base_height a [] b) : b = a := by
  cases h
  rfl

theorem head (h : Walk data base_height a (p :: gs) b) :
    p.off = a ∧ window_group base_height (data.drop a) = .ok (p.group, p.len) ∧
      Walk data base_height (a + p.len) gs b := by
  cases h with
  | cons hoff h hw => exact ⟨hoff, h, hw⟩

theorem mem (h : Walk data base_height a gs b) (hp : p ∈ gs) :
    a ≤ p.off ∧ p.off + p.len ≤ b ∧ 33 ≤ p.len ∧
      window_group base_height (data.drop p.off) = .ok (p.group, p.len) := by
  induction h with
  | nil _ => cases hp
  | cons hoff h hw ih =>
    rcases List.mem_cons.mp hp with rfl | hp
    · subst hoff
      exact ⟨le_rfl, hw.le.1, (window_group_len h).1, h⟩
    · obtain ⟨hge, hle, hlen, hgroup⟩ := ih hp
      exact ⟨by omega, hle, hlen, hgroup⟩

variable {gs' : List Placed}

theorem compare {b' : ℕ} (h : Walk data base_height a gs b) (h' : Walk data base_height a gs' b') :
    (∃ more, gs' = gs ++ more ∧ Walk data base_height b more b') ∨
      ∃ more, gs = gs' ++ more ∧ Walk data base_height b' more b := by
  induction h generalizing gs' with
  | nil _ => exact Or.inl ⟨gs', rfl, h'⟩
  | @cons a p gs b hp h hw ih =>
    cases gs' with
    | nil =>
      cases h' with
      | nil _ => exact Or.inr ⟨p :: gs, rfl, .cons hp h hw⟩
    | cons q gs' =>
      obtain ⟨hoff, hq, hw'⟩ := h'.head
      rw [h] at hq
      obtain ⟨hgroup, hlen⟩ := Prod.mk.inj (Except.ok.inj hq)
      obtain rfl : p = q := by
        obtain ⟨off, len, group⟩ := p
        obtain ⟨off', len', group'⟩ := q
        dsimp only at hp hoff hgroup hlen
        rw [hp, hoff, hgroup, hlen]
      rcases ih hw' with ⟨more, rfl, hmore⟩ | ⟨more, rfl, hmore⟩
      · exact Or.inl ⟨more, rfl, hmore⟩
      · exact Or.inr ⟨more, rfl, hmore⟩

theorem from_end (h : Walk data base_height b gs b) : gs = [] := by
  cases gs with
  | nil => rfl
  | cons p gs =>
    have hmem := h.mem List.mem_cons_self
    omega

theorem end_unique (h : Walk data base_height a gs b) (h' : Walk data base_height a gs c) : b = c := by
  induction h with
  | nil _ => exact h'.nil_eq.symm
  | cons _ _ _ ih => exact ih h'.head.2.2

theorem at_end {b' : ℕ} (h : Walk data base_height data.length gs' b') : gs' = [] := by
  cases gs' with
  | nil => rfl
  | cons p gs' =>
    obtain ⟨-, hgroup, -⟩ := h.head
    rw [List.drop_length, window_group_empty] at hgroup
    cases hgroup

theorem unique (h : Walk data base_height a gs data.length) (h' : Walk data base_height a gs' data.length) :
    gs = gs' := by
  rcases h.compare h' with ⟨more, rfl, hmore⟩ | ⟨more, rfl, hmore⟩
  · rw [hmore.at_end, List.append_nil]
  · rw [hmore.at_end, List.append_nil]

end Walk

section Streams

omit [PublicKeys] in
theorem read_block_eq : READ_BLOCK = 8388608 := by decide

omit [PublicKeys] in
theorem max_group_eq : MAX_GROUP = 16777216 := by decide

def Blocked (start : ℕ) (p : Placed) : Prop :=
  ∃ k, p.off + MAX_GROUP < align_down start + k * READ_BLOCK ∧ align_down start + k * READ_BLOCK < p.off + p.len

structure Stream.Sound (file : List UInt8) (start : ℕ) (s : Stream) : Prop where
  limit_le : s.limit ≤ file.length
  aligned : s.limit = file.length ∨ ALIGN ∣ s.limit
  off_le : s.off ≤ s.next
  next_le : s.next ≤ s.limit
  window : s.window = (file.drop s.off).take (s.next - s.off)
  blocks : s.next = s.limit ∨ ∃ k, s.next = align_down start + k * READ_BLOCK
  skip : s.skip = 0
  ended : s.ended = true → s.next = s.limit
  open_ : s.done = false
  carried : ∀ k, align_down start + k * READ_BLOCK < s.next → align_down start + k * READ_BLOCK ≤ s.off + MAX_GROUP

namespace Stream.Sound

variable {file : List UInt8} {start : ℕ} {s : Stream}

omit [PublicKeys]

section

variable (h : s.Sound file start)
include h

theorem length_window : s.window.length = s.next - s.off := by
  have hlimit := h.limit_le
  have hnext := h.next_le
  rw [h.window, List.length_take, List.length_drop]
  omega

theorem isPrefix : s.window <+: (file.take s.limit).drop s.off := by
  have hnext := h.next_le
  rw [h.window, List.drop_take]
  exact List.take_prefix_take_left (by omega)

theorem block_length (hlt : s.next < s.limit) :
    (read_full_at file (min READ_BLOCK (align_up (s.limit - s.next))) s.next).length =
      min READ_BLOCK (s.limit - s.next) ∧
    ((read_full_at file (min READ_BLOCK (align_up (s.limit - s.next))) s.next).length <
      min READ_BLOCK (align_up (s.limit - s.next)) →
      s.next + min READ_BLOCK (s.limit - s.next) = s.limit) := by
  have hlimit := h.limit_le
  have hplace : ∃ q, s.next = q * 4096 := by
    rcases h.blocks with hend | ⟨k, hk⟩
    · omega
    · refine ⟨start / 4096 + k * 2048, ?_⟩
      rw [hk, align_down, read_block_eq, ALIGN]
      ring
  obtain ⟨q, hq⟩ := hplace
  rw [read_full_at, List.length_take, List.length_drop, read_block_eq, align_up, ALIGN]
  rcases h.aligned with hfile | ⟨m, hm⟩
  · omega
  · rw [ALIGN] at hm
    omega

theorem fill_full (hfull : MAX_GROUP < s.window.length) :
    s.fill file = invalid "txid group larger than the parse window" := by
  rw [Stream.fill, h.open_, if_neg Bool.false_ne_true, if_pos hfull]

theorem fill_end (hroom : ¬MAX_GROUP < s.window.length) (hend : s.next = s.limit) :
    s.fill file = .ok (false, { s with done := true }) := by
  rw [Stream.fill, h.open_, if_neg Bool.false_ne_true, if_neg hroom, if_pos (Or.inr hend.ge)]

theorem fill_more (hroom : ¬MAX_GROUP < s.window.length) (hlt : s.next < s.limit) :
    ∃ s', s.fill file = .ok (true, s') ∧ s'.Sound file start ∧ s'.off = s.off ∧ s'.limit = s.limit ∧
      s.next < s'.next := by
  have hnot : ¬(s.ended = true ∨ s.limit ≤ s.next) := by
    rintro (hended | hle)
    · exact absurd (h.ended hended) hlt.ne
    · omega
  obtain ⟨hlen, hlast⟩ := h.block_length hlt
  have hlimit := h.limit_le
  have hoff := h.off_le
  have hwindow := h.length_window
  have hpos : 0 < min READ_BLOCK (s.limit - s.next) := by
    rw [read_block_eq]
    omega
  rw [Stream.fill, if_neg (by rw [h.open_]; exact Bool.false_ne_true), if_neg hroom, if_neg hnot]
  dsimp only
  rw [h.skip, Nat.zero_min, hlen, decide_eq_true hpos]
  refine ⟨_, rfl, ⟨hlimit, h.aligned, ?_, ?_, ?_, ?_, rfl, ?_, h.open_, ?_⟩, rfl, rfl, ?_⟩
  · change s.off + 0 ≤ s.next + _
    omega
  · change s.next + _ ≤ s.limit
    omega
  · change (s.window ++ _).drop 0 = (file.drop (s.off + 0)).take (s.next + _ - (s.off + 0))
    have hsame : read_full_at file (min READ_BLOCK (align_up (s.limit - s.next))) s.next =
        (file.drop s.next).take (min READ_BLOCK (s.limit - s.next)) := by
      rw [← hlen, read_full_at, List.length_take, List.take_eq_take_iff]
      omega
    have hdrop : file.drop s.next = (file.drop s.off).drop (s.next - s.off) := by
      rw [List.drop_drop]
      congr 1
      omega
    have hcount : s.next + min READ_BLOCK (s.limit - s.next) - s.off =
        (s.next - s.off) + min READ_BLOCK (s.limit - s.next) := by omega
    rw [List.drop_zero, Nat.add_zero, hsame, hcount, List.take_add, ← hdrop, ← h.window]
  · change s.next + _ = s.limit ∨ ∃ k, s.next + _ = _
    rcases h.blocks with hend | ⟨k, hk⟩
    · omega
    by_cases hfit : READ_BLOCK ≤ s.limit - s.next
    · refine Or.inr ⟨k + 1, ?_⟩
      rw [Nat.min_eq_left hfit, hk]
      ring
    · exact Or.inl (by omega)
  · intro hended
    exact hlast (by rw [hlen]; exact of_decide_eq_true hended)
  · intro j hj
    change align_down start + j * READ_BLOCK < s.next + _ at hj
    change _ ≤ s.off + 0 + MAX_GROUP
    by_cases hold : align_down start + j * READ_BLOCK < s.next
    · exact h.carried j hold
    rcases h.blocks with hend | ⟨k, hk⟩
    · omega
    rw [read_block_eq] at hj hold hk
    have hjk : j = k := by omega
    subst hjk
    rw [read_block_eq, ← hk]
    omega
  · change s.next < s.next + _
    omega

theorem consume {len : ℕ} (hlen : len ≤ s.window.length) :
    (s.consume len).Sound file start := by
  have hoff := h.off_le
  rw [h.length_window] at hlen
  refine ⟨h.limit_le, h.aligned, ?_, h.next_le, ?_, h.blocks, h.skip, h.ended, h.open_, ?_⟩
  · change s.off + len ≤ s.next
    omega
  · change s.window.drop len = (file.drop (s.off + len)).take (s.next - (s.off + len))
    rw [h.window, List.drop_take, List.drop_drop, Nat.sub_sub]
  · intro k hk
    exact (h.carried k hk).trans (by change _ ≤ s.off + len + _; omega)

end

end Stream.Sound

end Streams

section Loop

variable {σ : Type}

def push_all (push : σ → ℕ → Group → Except ScanError σ) (acc : σ) (gs : List Placed) : Except ScanError σ :=
  gs.foldlM (fun acc p => push acc p.off p.group) acc

structure Pass (data : List UInt8) (base_height start : ℕ) (stop : Option ℕ) (open_end : Bool) (a : ℕ)
    (gs : List Placed) (b : ℕ) : Prop where
  walk : Walk data base_height a gs b
  before : ∀ p ∈ gs, ∀ t ∈ stop, p.off < t
  ended : (∃ t ∈ stop, t ≤ b) ∨ open_end = true ∧ b = data.length
  flows : ∀ p ∈ gs, ¬Blocked start p

variable {file : List UInt8} {base_height start : ℕ} {stop : Option ℕ} {open_end : Bool}
  {push : σ → ℕ → Group → Except ScanError σ}

omit [PublicKeys] in
theorem except_bind_ok_iff {ε α β : Type} {x : Except ε α} {f : α → Except ε β} {b : β} :
    (x >>= f) = .ok b ↔ ∃ a, x = .ok a ∧ f a = .ok b := by
  cases x <;> simp [bind, Except.bind]

omit [PublicKeys] in
theorem push_all_cons (acc acc' : σ) (p : Placed) (gs : List Placed) :
    push_all push acc (p :: gs) = .ok acc' ↔ ∃ next, push acc p.off p.group = .ok next ∧
      push_all push next gs = .ok acc' := by
  rw [push_all, List.foldlM_cons, except_bind_ok_iff]
  rfl

variable {data : List UInt8}

theorem Pass.nil_iff {a b : ℕ} : Pass data base_height start stop open_end a [] b ↔
    b = a ∧ a ≤ data.length ∧ ((∃ t ∈ stop, t ≤ a) ∨ open_end = true ∧ a = data.length) := by
  constructor
  · intro h
    cases h.walk with
    | nil hle => exact ⟨rfl, hle, h.ended⟩
  · rintro ⟨rfl, hle, hover⟩
    exact ⟨.nil hle, by simp, hover, by simp⟩

theorem Pass.cons_iff {a b : ℕ} {gs : List Placed} :
    Pass data base_height start stop open_end a (p :: gs) b ↔ p.off = a ∧ (∀ t ∈ stop, a < t) ∧ ¬Blocked start p ∧
      window_group base_height (data.drop a) = .ok (p.group, p.len) ∧
      Pass data base_height start stop open_end (a + p.len) gs b := by
  constructor
  · intro h
    obtain ⟨hoff, hgroup, hwalk⟩ := h.walk.head
    exact ⟨hoff, fun t ht => hoff ▸ h.before p List.mem_cons_self t ht, h.flows p List.mem_cons_self, hgroup, hwalk,
      fun q hq => h.before q (List.mem_cons_of_mem _ hq), h.ended, fun q hq => h.flows q (List.mem_cons_of_mem _ hq)⟩
  · rintro ⟨hoff, hbefore, hflow, hgroup, h⟩
    refine ⟨.cons hoff hgroup h.walk, ?_, h.ended, ?_⟩
    · intro q hq
      rcases List.mem_cons.mp hq with rfl | hq
      · rw [hoff]
        exact hbefore
      · exact h.before q hq
    · intro q hq
      rcases List.mem_cons.mp hq with rfl | hq
      · exact hflow
      · exact h.flows q hq

theorem group_loop_ok_iff {turns : ℕ} {s : Stream} (hs : s.Sound file start)
    (hturns : (s.limit - s.off) + (s.limit - s.next) < turns) (acc acc' : σ) (b : ℕ) :
    (∃ s', group_loop file base_height stop open_end push turns s acc = .ok (s', acc') ∧ s'.off = b) ↔
      ∃ gs, Pass (file.take s.limit) base_height start stop open_end s.off gs b ∧
        push_all push acc gs = .ok acc' := by
  have hlen : (file.take s.limit).length = s.limit := by
    rw [List.length_take, Nat.min_eq_left hs.limit_le]
  induction turns generalizing s acc with
  | zero => omega
  | succ turns ih =>
    have hoff := hs.off_le
    have hnext := hs.next_le
    have hwindow := hs.length_window
    have hprefix := hs.isPrefix
    rw [group_loop]
    by_cases hstop : stop.any (· ≤ s.off) = true
    · rw [if_pos hstop]
      obtain ⟨t, ht, hle⟩ := (Option.any_eq_true _ _).mp hstop
      have hle' : t ≤ s.off := of_decide_eq_true hle
      constructor
      · rintro ⟨s', hok, rfl⟩
        obtain ⟨rfl, rfl⟩ := Prod.mk.inj (Except.ok.inj hok)
        exact ⟨[], Pass.nil_iff.mpr ⟨rfl, by omega, Or.inl ⟨t, ht, hle'⟩⟩, rfl⟩
      · rintro ⟨gs, hpass, hpush⟩
        cases gs with
        | nil =>
          obtain ⟨rfl, -, -⟩ := Pass.nil_iff.mp hpass
          cases hpush
          exact ⟨s, rfl, rfl⟩
        | cons p gs =>
          obtain ⟨-, hbefore, -⟩ := Pass.cons_iff.mp hpass
          exact absurd (hbefore t ht) (by omega)
    have hbefore : ∀ t ∈ stop, s.off < t := by
      intro t ht
      by_contra hle
      exact hstop ((Option.any_eq_true _ _).mpr ⟨t, ht, decide_eq_true (by omega)⟩)
    have hopen {b : ℕ} {gs : List Placed}
        (h : Pass (file.take s.limit) base_height start stop open_end s.off gs b) :
        gs = [] ∧ s.off = s.limit ∧ open_end = true ∧ b = s.off ∨ ∃ p rest, gs = p :: rest := by
      cases gs with
      | nil =>
        obtain ⟨hb, -, hover⟩ := Pass.nil_iff.mp h
        rcases hover with ⟨t, ht, hle⟩ | ⟨hopen, hend⟩
        · exact absurd (hbefore t ht) (by omega)
        · exact Or.inl ⟨rfl, by rw [hend, hlen], hopen, hb⟩
      | cons p rest => exact Or.inr ⟨p, rest, rfl⟩
    have hempty (h : s.off = s.limit) : s.window = [] := List.length_eq_zero_iff.mp (by omega)
    -- the window ends at the limit, or where a block does
    have hdata (hend : s.next = s.limit) {g : Group} {len : ℕ}
        (h : window_group base_height ((file.take s.limit).drop s.off) = .ok (g, len)) :
        window_group base_height s.window = .ok (g, len) := by
      have hle := (window_group_len h).2
      rw [List.length_drop, hlen] at hle
      exact window_group_held hprefix h (by omega)
    rw [if_neg hstop]
    cases hgroup : window_group base_height s.window with
    | ok found =>
      obtain ⟨g, len⟩ := found
      obtain ⟨hpos, hle⟩ := window_group_len hgroup
      have hwhole := window_group_whole hprefix hgroup
      have hnexts := ih (hs.consume hle) (by change (s.limit - (s.off + len)) + (s.limit - s.next) < turns; omega)
      constructor
      · rintro ⟨s', hok, hb⟩
        obtain ⟨next, hpush, hloop⟩ := except_bind_ok_iff.mp hok
        obtain ⟨gs, hpass, hall⟩ := (hnexts next hlen).mp ⟨s', hloop, hb⟩
        refine ⟨⟨s.off, len, g⟩ :: gs, Pass.cons_iff.mpr ⟨rfl, hbefore, ?_, hwhole, hpass⟩, ?_⟩
        · rintro ⟨k, hgt, hlt⟩
          dsimp only at hgt hlt
          have hcarried := hs.carried k (by omega)
          omega
        · exact (push_all_cons _ _ _ _).mpr ⟨next, hpush, hall⟩
      · rintro ⟨gs, hpass, hall⟩
        rcases hopen hpass with ⟨-, hend, -⟩ | ⟨p, rest, rfl⟩
        · rw [hempty hend, window_group_empty] at hgroup
          cases hgroup
        obtain ⟨hplace, -, -, hp, hrest⟩ := Pass.cons_iff.mp hpass
        rw [hwhole] at hp
        obtain ⟨hg, hl⟩ := Prod.mk.inj (Except.ok.inj hp)
        obtain ⟨next, hpush, hall⟩ := (push_all_cons _ _ _ _).mp hall
        rw [hplace, ← hg] at hpush
        rw [← hl] at hrest
        obtain ⟨s', hloop, hb⟩ := (hnexts next hlen).mpr ⟨rest, hrest, hall⟩
        exact ⟨s', except_bind_ok_iff.mpr ⟨next, hpush, hloop⟩, hb⟩
    | error e =>
      cases e with
      | Bad m =>
        constructor
        · rintro ⟨s', hok, -⟩
          cases hok
        · rintro ⟨gs, hpass, -⟩
          rcases hopen hpass with ⟨-, hend, -⟩ | ⟨p, rest, rfl⟩
          · rw [hempty hend, window_group_empty] at hgroup
            cases hgroup
          · obtain ⟨-, -, -, hp, -⟩ := Pass.cons_iff.mp hpass
            rw [window_group_bad hprefix hgroup] at hp
            cases hp
      | Short =>
        by_cases hfull : MAX_GROUP < s.window.length
        · rw [hs.fill_full hfull]
          constructor
          · rintro ⟨s', hok, -⟩
            cases hok
          · rintro ⟨gs, hpass, -⟩
            exfalso
            rcases hopen hpass with ⟨-, hend, -⟩ | ⟨p, rest, rfl⟩
            · rw [hempty hend] at hfull
              exact absurd hfull (Nat.not_lt_zero _)
            obtain ⟨hplace, -, hflow, hp, -⟩ := Pass.cons_iff.mp hpass
            have hshort : s.window.length < p.len := by
              by_contra hle
              rw [window_group_held hprefix hp (by omega)] at hgroup
              cases hgroup
            rcases hs.blocks with hend | ⟨k, hk⟩
            · rw [hdata hend hp] at hgroup
              cases hgroup
            · exact hflow ⟨k, by omega, by omega⟩
        by_cases hend : s.next = s.limit
        · rw [hs.fill_end hfull hend]
          constructor
          · rintro ⟨s', hok, hb⟩
            change (if !open_end then Except.error _ else if s.window = [] then Except.ok _ else Except.error _) =
              _ at hok
            split_ifs at hok with hclosed hnil
            obtain ⟨rfl, rfl⟩ := Prod.mk.inj (Except.ok.inj hok)
            have hplace : s.off = s.limit := by
              rw [hnil, List.length_nil] at hwindow
              omega
            subst hb
            exact ⟨[], Pass.nil_iff.mpr
              ⟨rfl, by rw [hlen]; omega, Or.inr ⟨by simpa using hclosed, by rw [hlen, hplace]⟩⟩,
              rfl⟩
          · rintro ⟨gs, hpass, hall⟩
            rcases hopen hpass with ⟨rfl, hplace, hclosed, hb⟩ | ⟨p, rest, rfl⟩
            · cases hall
              refine ⟨{ s with done := true }, ?_, hb.symm⟩
              change (if !open_end then _ else if s.window = [] then _ else _) = _
              rw [hclosed, if_neg (by simp), if_pos (hempty hplace)]
            · obtain ⟨-, -, -, hp, -⟩ := Pass.cons_iff.mp hpass
              rw [hdata hend hp] at hgroup
              cases hgroup
        · obtain ⟨s', hfill, hs', hplace, hlimit, hmore⟩ := hs.fill_more hfull (by omega)
          have hnexts := ih hs' (by rw [hplace, hlimit]; have := hs'.next_le; omega) acc (by rw [hlimit]; exact hlen)
          rw [hlimit, hplace] at hnexts
          rw [hfill]
          exact hnexts

end Loop

end AvilaNode.Snapshot
