import AvilaNode.HashCommit

/-! The two rewrites of a store's files: an index that grows, and a log that is compacted. -/

namespace AvilaNode.HashCoins

open ByteStrings CoinCodec Function Layers LinearProbing

def view (slots : List (Option Slot)) (i : ℕ) : Option Slot := slots[i]?.join

theorem view_set {slots : List (Option Slot)} {p : ℕ} (hp : p < slots.length) (s : Option Slot) :
    view (slots.set p s) = update (view slots) p s := by
  funext i
  by_cases h : i = p
  · subst h
    rw [update_self, view, List.getElem?_set_self hp]
    rfl
  · rw [update_of_ne h, view, List.getElem?_set_ne (Ne.symm h), view]

theorem held_view {slots : List (Option Slot)} {s : Slot} : Held slots.length (view slots) s ↔ some s ∈ slots := by
  rw [List.mem_iff_getElem?]
  constructor
  · rintro ⟨p, -, hs⟩
    exact ⟨p, Option.join_eq_some_iff.mp hs⟩
  · rintro ⟨p, hs⟩
    exact ⟨p, (List.getElem?_eq_some_iff.mp hs).1, Option.join_eq_some_iff.mpr hs⟩

theorem load_view (slots : List (Option Slot)) : load slots.length (view slots) = slots.countP Option.isSome := by
  have hslots : slots = (List.range slots.length).map (view slots) := by
    apply List.ext_getElem
    · simp
    · intro i h _
      rw [List.getElem_map, List.getElem_range, view, List.getElem?_eq_getElem h]
      rfl
  conv_rhs => rw [hslots, List.countP_map]
  rfl

theorem view_replicate (cap : ℕ) : view (List.replicate cap none) = fun _ => none := by
  funext i
  rw [view, List.getElem?_replicate]
  split_ifs <;> rfl

theorem load_none (cap : ℕ) : load cap (fun _ => (none : Option Slot)) = 0 := by
  simp [load]

def Distinct (slots : List (Option Slot)) : Prop := slots.Pairwise fun a b =>
    ∀ s s', a = some s → b = some s' → s.key ≠ s'.key

namespace HashStore

variable {store : HashStore}

variable {cap : ℕ} {slots : List (Option Slot)} {slot : Option Slot} {dat : Dat}

theorem double_until_spec {need fuel cap : ℕ} (hcap : 0 < cap) (hfuel : 0 < fuel)
    (henough : need * MAX_LOAD_DEN + 1 ≤ fuel + cap * MAX_LOAD_NUM) :
    ∃ j, double_until need fuel cap = .ok (cap * 2 ^ j) ∧ need * MAX_LOAD_DEN ≤ cap * 2 ^ j * MAX_LOAD_NUM := by
  unfold MAX_LOAD_DEN MAX_LOAD_NUM at *
  induction fuel generalizing cap with
  | zero => omega
  | succ fuel ih =>
    rw [double_until]
    unfold MAX_LOAD_DEN MAX_LOAD_NUM
    split_ifs with hlt
    · obtain ⟨j, heq, hle⟩ := @ih (cap * 2) (by omega) (by omega) (by omega)
      refine ⟨j + 1, ?_, ?_⟩
      · rw [heq, Nat.mul_assoc, Nat.pow_succ']
      · rwa [Nat.pow_succ', ← Nat.mul_assoc]
    · exact ⟨0, by simp, by simpa using Nat.not_lt.mp hlt⟩

theorem rehash_run (hcap : ∃ e, cap = 2 ^ e) {new : List (Option Slot)} (hlen : new.length = cap)
    (hnew : Probed cap Slot.key (store.home cap) (view new)) (hdistinct : Distinct slots)
    (hfresh : ∀ s, some s ∈ slots → ∀ s', Held cap (view new) s' → s'.key ≠ s.key)
    (hroom : load cap (view new) + slots.countP Option.isSome < cap) :
    ∃ new', slots.foldlM (store.rehash cap) new = .ok new' ∧ new'.length = cap ∧
      Probed cap Slot.key (store.home cap) (view new') ∧
      (∀ s, Held cap (view new') s ↔ Held cap (view new) s ∨ some s ∈ slots) ∧
      load cap (view new') = load cap (view new) + slots.countP Option.isSome := by
  induction slots generalizing new with
  | nil => exact ⟨new, rfl, hlen, hnew, fun s => by simp, rfl⟩
  | cons slot slots ih =>
    rw [Distinct, List.pairwise_cons] at hdistinct
    cases slot with
    | none =>
      rw [List.countP_cons_of_neg (by simp)] at hroom ⊢
      obtain ⟨new', hrun, hlen', hnew', hheld, hload⟩ := ih hlen hnew hdistinct.2
        (fun s hs => hfresh s (List.mem_cons_of_mem _ hs)) hroom
      refine ⟨new', hrun, hlen', hnew', fun s => ?_, hload⟩
      rw [hheld, List.mem_cons]
      simp
    | some s =>
      rw [List.countP_cons_of_pos (by simp)] at hroom ⊢
      have habsent := hfresh s List.mem_cons_self
      obtain ⟨p, hp, hvacant, hnone, hpath⟩ := @vacant_spec _ cap (view new) _ (hnew.home_lt s.key) hnew.room
      have hprobed := hnew.put hp hnone habsent hpath (by omega)
      have hset := view_set (hp.trans_eq hlen.symm) (some s)
      rw [← hset] at hprobed
      have hload := @load_update _ _ (view new) p hp (some s)
      rw [hnone, ← hset] at hload
      simp only [Option.isSome_none, Option.isSome_some, Bool.toNat_false, Bool.toNat_true] at hload
      have hheld' : ∀ x, Held cap (view (new.set p (some s))) x ↔ x = s ∨ Held cap (view new) x := by
        intro x
        rw [hset]
        exact held_put hp hnone
      have hstep : store.rehash cap new (some s) = .ok (new.set p (some s)) := by
        have hfree := vacant_from_eq hcap new cap (@home_lt cap store hcap s.key)
        rw [rehash, hfree]
        change (outcome (vacant cap (view new) cap (store.home cap s.key))).map _ = _
        rw [hvacant]
        rfl
      obtain ⟨new', hrun, hlen', hnew', hheld, hload'⟩ := @ih (new.set p (some s)) (by rwa [List.length_set]) hprobed
        hdistinct.2 (by
          intro x hx x' hx'
          rcases (hheld' x').mp hx' with rfl | hx'
          · exact hdistinct.1 (some x) hx x' x rfl rfl
          · exact hfresh x (List.mem_cons_of_mem _ hx) x' hx') (by omega)
      refine ⟨new', ?_, hlen', hnew', fun x => ?_, by omega⟩
      · rw [List.foldlM_cons, hstep]
        exact hrun
      · rw [hheld, hheld', List.mem_cons, Option.some.injEq]
        tauto

theorem distinct_of_probed (hlen : slots.length = cap) (h : Probed cap Slot.key (store.home cap) (view slots)) :
    Distinct slots := by
  rw [Distinct, List.pairwise_iff_getElem]
  intro i j hi hj hij s s' hs hs' hkey
  have hview : ∀ p (hp : p < slots.length), view slots p = slots[p] := fun p hp => by
    rw [view, List.getElem?_eq_getElem hp]
    rfl
  exact hij.ne (h.distinct i (hi.trans_eq hlen) j (hj.trans_eq hlen) s s' ((hview i hi).trans hs)
    ((hview j hj).trans hs') hkey)

theorem grown_spec (hcap : ∃ e, store.cap = 2 ^ e) (hlen : store.idx.slots.length = store.cap)
    (hprobed : Probed store.cap Slot.key (store.home store.cap) store.idx.slot)
    (hcount : load store.cap store.idx.slot = store.count) {need : ℕ} (hneed : store.count ≤ need) :
    ∃ cap slots, store.grown need = .ok ⟨⟨cap, store.count, store.k0, store.k1, 0, 0⟩, slots⟩ ∧ (∃ e, cap = 2 ^ e) ∧
      slots.length = cap ∧ need * MAX_LOAD_DEN ≤ cap * MAX_LOAD_NUM ∧
      Probed cap Slot.key (store.home cap) (view slots) ∧
      (∀ s, Held cap (view slots) s ↔ Held store.cap store.idx.slot s) ∧ load cap (view slots) = store.count := by
  obtain ⟨e, he⟩ := hcap
  have hpos : 0 < store.cap := he ▸ Nat.two_pow_pos e
  obtain ⟨j, hdouble, hle⟩ :=
    @double_until_spec need (need * MAX_LOAD_DEN + 1) (store.cap * 2) (by omega) (Nat.succ_pos _)
    (Nat.le_add_right _ _)
  have hcap' : ∃ e', store.cap * 2 * 2 ^ j = 2 ^ e' := ⟨e + 1 + j, by rw [he, Nat.pow_add, Nat.pow_succ]⟩
  have hpos' : 0 < store.cap * 2 * 2 ^ j := Nat.mul_pos (by omega) (Nat.two_pow_pos j)
  have hslots : store.idx.slots.countP Option.isSome = store.count := by
    rw [← load_view, hlen]
    exact hcount
  have hroom : store.count < store.cap * 2 * 2 ^ j := by
    unfold MAX_LOAD_DEN MAX_LOAD_NUM at hle
    omega
  have hempty : Probed (store.cap * 2 * 2 ^ j) Slot.key (store.home (store.cap * 2 * 2 ^ j))
      (view (List.replicate (store.cap * 2 * 2 ^ j) none)) := by
    rw [view_replicate]
    refine ⟨home_lt hcap', ?_, ?_, by rwa [load_none]⟩
    · intro p _ s hs
      cases hs
    · intro p _ q _ s s' hs
      cases hs
  have hnone : ∀ s, ¬Held (store.cap * 2 * 2 ^ j) (view (List.replicate (store.cap * 2 * 2 ^ j) none)) s := by
    rintro s ⟨p, -, hs⟩
    rw [view_replicate] at hs
    cases hs
  obtain ⟨slots, hrun, hlen', hprobed', hheld, hload⟩ := rehash_run hcap' List.length_replicate hempty
    (distinct_of_probed hlen hprobed) (fun s _ s' hs' => absurd hs' (hnone s'))
    (by rwa [view_replicate, load_none, hslots, Nat.zero_add])
  refine ⟨_, slots, ?_, hcap', hlen', hle, hprobed', fun s => ?_, ?_⟩
  · rw [grown, hdouble]
    change (store.idx.slots.foldlM (store.rehash _) _).bind _ = _
    rw [hrun]
    rfl
  · rw [hheld, or_iff_right (hnone s), ← held_view, hlen]
    rfl
  · rw [hload, view_replicate, load_none, hslots, Nat.zero_add]

structure Moved (dat dat' : Dat) (s s' : Slot) : Prop where
  key : s'.key = s.key
  record : dat'.record s'.slot_rec = dat.record s.slot_rec

def Between (low high : ℕ) (slot : Option Slot) : Prop :=
  ∀ s off len, slot = some s → s.slot_rec = .spilled off len → DAT_HDR + low ≤ off ∧ off + len ≤ DAT_HDR + high

theorem Between.mono {low low' high high' : ℕ} (h : Between low high slot) (hlow : low' ≤ low)
    (hhigh : high ≤ high') : Between low' high' slot := by
  intro s off len hs hspill
  have hb := h s off len hs hspill
  omega

theorem rewrite_step (hin : ∀ s off len, slot = some s → s.slot_rec = .spilled off len → DAT_HDR ≤ off ∧
    off + len ≤ dat.len) (log : List UInt8) (out : List (Option Slot)) : ∃ log' slot',
      rewrite dat (log, out) slot = .ok (log', out ++ [slot']) ∧ log <+: log' ∧
      (∀ generation, Option.Rel (Moved dat ⟨generation, log'⟩) slot slot') ∧
        Between log.length log'.length slot' := by
  cases slot with
  | none =>
    refine ⟨log, none, rfl, List.prefix_refl log, fun _ => .none, ?_⟩
    intro s off len hs
    cases hs
  | some s =>
    obtain ⟨key, r⟩ := s
    cases r with
    | inline b =>
      refine ⟨log, some ⟨key, .inline b⟩, rfl, List.prefix_refl log, fun _ => .some ⟨rfl, rfl⟩, ?_⟩
      intro s off len hs hspill
      cases hs
      cases hspill
    | spilled off len =>
      obtain ⟨hoff, hlen⟩ := hin _ off len rfl rfl
      have hread := Dat.read_eq hlen
      have hbytes := Dat.length_read hoff hread
      refine ⟨log ++ (dat.log.drop (off - DAT_HDR)).take len, some ⟨key, .spilled (DAT_HDR + log.length) len⟩, ?_,
        List.prefix_append _ _, fun generation => .some ⟨rfl, ?_⟩, ?_⟩
      · rw [rewrite]
        simp only [hread]
      · have hnew := Dat.read_appended ⟨generation, log⟩ generation ((dat.log.drop (off - DAT_HDR)).take len)
        rw [hbytes] at hnew
        exact hnew.trans hread.symm
      · intro s off' len' hs hspill
        cases hs
        cases hspill
        rw [List.length_append, hbytes]
        omega

theorem Moved.extend {generation : ℕ} {log log' : List UInt8} {slot' : Option Slot}
    (h : Option.Rel (Moved dat ⟨generation, log⟩) slot slot') {low : ℕ} (hin : Between low log.length slot')
    (hlog : log <+: log') : Option.Rel (Moved dat ⟨generation, log'⟩) slot slot' := by
  cases h with
  | none => exact .none
  | @some s s' h =>
    refine .some ⟨h.key, ?_⟩
    rw [← h.record]
    cases hrec : s'.slot_rec with
    | inline b => rfl
    | spilled off len =>
      obtain ⟨more, rfl⟩ := hlog
      obtain ⟨hoff, hlen⟩ := hin s' off len rfl hrec
      exact @Dat.read_append ⟨generation, log⟩ _ _ (by omega) hlen _ _

theorem rewrite_run {dat : Dat} {slots : List (Option Slot)}
    (hin : ∀ slot ∈ slots, ∀ s off len, slot = some s → s.slot_rec = .spilled off len → DAT_HDR ≤ off ∧
      off + len ≤ dat.len)
    (log : List UInt8) (out : List (Option Slot)) : ∃ log' slots',
      slots.foldlM (rewrite dat) (log, out) = .ok (log', out ++ slots') ∧ log <+: log' ∧
      (∀ generation, List.Forall₂ (Option.Rel (Moved dat ⟨generation, log'⟩)) slots slots') ∧
      (∀ slot ∈ slots', Between log.length log'.length slot) ∧
      slots'.Pairwise fun a b => ∀ s s' off len off' len', a = some s → b = some s' → s.slot_rec = .spilled off len →
        s'.slot_rec = .spilled off' len' → off + len ≤ off' := by
  induction slots generalizing log out with
  | nil => exact ⟨log, [], by simp [pure, Except.pure], List.prefix_refl log, fun _ => .nil, by simp, .nil⟩
  | cons slot slots ih =>
    rw [List.forall_mem_cons] at hin
    obtain ⟨log₁, slot', hstep, hlog₁, hmoved, hbetween⟩ := rewrite_step hin.1 log out
    obtain ⟨log', slots', hrun, hlog', hall, hbetweens, hpairs⟩ := ih hin.2 log₁ (out ++ [slot'])
    have hle₁ := hlog₁.length_le
    have hle' := hlog'.length_le
    refine ⟨log', slot' :: slots', ?_, hlog₁.trans hlog', fun generation =>
      .cons (Moved.extend (hmoved generation) hbetween hlog')
      (hall generation), ?_, ?_⟩
    · rw [List.foldlM_cons, hstep]
      change slots.foldlM (rewrite dat) (log₁, out ++ [slot']) = _
      rw [hrun, List.append_assoc]
      rfl
    · rw [List.forall_mem_cons]
      exact ⟨hbetween.mono (le_refl _) hle', fun slot hslot => (hbetweens slot hslot).mono hle₁ (le_refl _)⟩
    · rw [List.pairwise_cons]
      refine ⟨?_, hpairs⟩
      intro b hb s s' off len off' len' hs hs' hspill hspill'
      have hfirst := hbetween s off len hs hspill
      have hlater := hbetweens b hb s' off' len' hs' hspill'
      omega

theorem view_rel {r : Slot → Slot → Prop} {slots' : List (Option Slot)}
    (h : List.Forall₂ (Option.Rel r) slots slots') (p : ℕ) : Option.Rel r (view slots p) (view slots' p) := by
  obtain ⟨hlen, hget⟩ := List.forall₂_iff_get.mp h
  by_cases hp : p < slots.length
  · have hrel := hget p hp (hlen ▸ hp)
    rw [List.get_eq_getElem, List.get_eq_getElem] at hrel
    rw [view, view, List.getElem?_eq_getElem hp, List.getElem?_eq_getElem (hlen ▸ hp)]
    exact hrel
  · rw [view, view, List.getElem?_eq_none (Nat.not_lt.mp hp), List.getElem?_eq_none (hlen ▸ Nat.not_lt.mp hp)]
    exact .none

variable [PublicKeys] {m : Table OutPoint Coin}

theorem compacted_spec (hlen : store.idx.slots.length = store.cap)
    (h : store.Filled store.idx.slot store.dat m) : ∃ slots log,
      store.compacted = .ok
        (⟨{ store.idx.header with generation := store.generation + 1 }, slots⟩, ⟨store.generation + 1, log⟩) ∧
      slots.length = store.cap ∧ store.Filled (view slots) ⟨store.generation + 1, log⟩ m ∧
      load store.cap (view slots) = load store.cap store.idx.slot := by
  have hmem : ∀ s, some s ∈ store.idx.slots ↔ Held store.cap store.idx.slot s := fun s => by
    rw [← held_view, hlen]
    rfl
  obtain ⟨log, slots, hrun, -, hall, hbetween, hpairs⟩ := @rewrite_run store.dat store.idx.slots
    (fun slot hslot s off len hs hspill => h.inside s off len ((hmem s).mp (hs ▸ hslot)) hspill) [] []
  have hlen' : slots.length = store.cap := ((hall 0).length_eq).symm.trans hlen
  have hrel := view_rel (hall (store.generation + 1))
  have hkeys : ∀ p < store.cap, (view slots p).map Slot.key = (store.idx.slot p).map Slot.key := by
    intro p _
    have hp := hrel p
    change Option.Rel _ (store.idx.slot p) _ at hp
    generalize store.idx.slot p = a at hp
    generalize view slots p = b at hp
    cases hp with
    | none => rfl
    | some hm => exact congrArg some hm.key
  have hold : ∀ s', Held store.cap (view slots) s' → ∃ s, Held store.cap store.idx.slot s ∧
      Moved store.dat ⟨store.generation + 1, log⟩ s s' := by
    rintro s' ⟨p, hp, hs'⟩
    have hr := hrel p
    change Option.Rel _ (store.idx.slot p) _ at hr
    rw [hs'] at hr
    cases hslot : store.idx.slot p with
    | none =>
      rw [hslot] at hr
      cases hr
    | some s =>
      rw [hslot] at hr
      cases hr with
      | some hm => exact ⟨s, ⟨p, hp, hslot⟩, hm⟩
  refine ⟨slots, log, ?_, hlen', ⟨h.probed.congr hkeys, ?_, ?_, ?_, ?_⟩, ?_⟩
  · rw [compacted]
    rw [hrun]
    rfl
  · intro s' hs'
    obtain ⟨s, hs, hm⟩ := hold s' hs'
    rw [hm.key, hm.record]
    exact h.coin s hs
  · intro key c hc
    obtain ⟨s, ⟨p, hp, hs⟩, rfl⟩ := h.held key c hc
    have hr := hrel p
    change Option.Rel _ (store.idx.slot p) _ at hr
    rw [hs] at hr
    cases hslot : view slots p with
    | none =>
      rw [hslot] at hr
      cases hr
    | some s' =>
      rw [hslot] at hr
      cases hr with
      | some hm => exact ⟨s', ⟨p, hp, hslot⟩, hm.key⟩
  · rintro s' off len ⟨p, -, hs'⟩ hspill
    have hb := hbetween (some s')
      (List.mem_iff_getElem?.mpr ⟨p, Option.join_eq_some_iff.mp hs'⟩) s' off len rfl hspill
    exact ⟨(Nat.le_add_right _ _).trans hb.1, hb.2⟩
  · rintro s s' off len off' len' ⟨p, hp, hs⟩ ⟨q, hq, hs'⟩ hne hspill hspill'
    have hget : ∀ i x, view slots i = some x → ∃ hi : i < slots.length, slots[i] = some x := fun i x hx =>
      List.getElem?_eq_some_iff.mp (Option.join_eq_some_iff.mp hx)
    obtain ⟨hp', hs⟩ := hget p s hs
    obtain ⟨hq', hs'⟩ := hget q s' hs'
    rw [List.pairwise_iff_getElem] at hpairs
    rcases Nat.lt_trichotomy p q with hlt | rfl | hlt
    · exact .inl (hpairs p q hp' hq' hlt s s' off len off' len' hs hs' hspill hspill')
    · rw [hs] at hs'
      cases hs'
      exact absurd rfl hne
    · exact .inr (hpairs q p hq' hp' hlt s' s off' len' off len hs' hs hspill' hspill)
  · apply List.countP_congr
    intro p hp
    have hp' := congrArg Option.isSome (hkeys p (List.mem_range.mp hp))
    rw [Option.isSome_map, Option.isSome_map] at hp'
    rw [hp']

end HashStore

end AvilaNode.HashCoins
