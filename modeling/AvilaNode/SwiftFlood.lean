import AvilaNode.SwiftRewind

/-! A block of survivor updates alone is applied, however many, and past the reader's bound it is not rewound. -/

namespace AvilaNode

open ByteStrings CoinCodec Layers BeforeImages

namespace SwiftLive

namespace Flood

def updates (n : ℕ) : List (OutPoint × Option Coin) := (List.range n).map fun i => (⟨0, i⟩, some sample_coin)

def application (n : ℕ) : Application := ⟨1, 0, 1, [], none, none, none, none, updates n⟩

def key (i : ℕ) : RunKey := RunFile.outpoint_key ⟨0, i⟩

theorem key_inj {i j : ℕ} (hi : i < 2 ^ 32) (hj : j < 2 ^ 32) (h : key i = key j) : i = j :=
  congrArg OutPoint.vout (EpochFiles.outpoint_key_inj (a := ⟨0, i⟩) (b := ⟨0, j⟩) hi hj h)

section

variable [PublicKeys]

structure After (n : ℕ) (b : Batch) : Prop where
  coins : b.coins = ∅
  count : b.before.keys.length = n
  images : ∀ key image, b.before.lookup key = some image → image = ⟨none, none⟩
  fresh : ∀ i, n ≤ i → i < 2 ^ 32 → b.survivors.lookup (key i) = none ∧ b.before.lookup (key i) = none
  journal : b.journal_value_bytes = 108 + 46 * n
  next : b.next = { State.start sample_binding with
    survivor_entries := n, survivor_bytes := n * (36 + (encode_coin sample_coin).length) }

theorem length_sample_coin : (encode_coin sample_coin).length ≤ 62 :=
  (length_encode_coin sample_coin).trans (by decide)

variable {n : ℕ}

theorem After.update {b : Batch} (h : After n b) (hn : n < 2 ^ 32) :
    ∃ b', apply_survivor sample_limits 1 b (⟨0, n⟩, some sample_coin) = .ok b' ∧ After (n + 1) b' := by
  obtain ⟨hsurvivor, hbefore⟩ := h.fresh n le_rfl hn
  have hlen := length_sample_coin
  have hlimits : sample_limits.max_undo_encoded_bytes = 1000000000000 ∧
    sample_limits.max_survivor_entries = 1000000000000 ∧
      sample_limits.max_survivor_encoded_bytes = 1000000000000 := ⟨rfl, rfl, rfl⟩
  have hbytes : n * (36 + (encode_coin sample_coin).length) ≤ n * 98 := Nat.mul_le_mul_left n (by omega)
  have hentered : enter_vacant sample_limits (key n) (get_row b.coins (key n)) b = .ok { b with
      before := b.before.insert (key n) ⟨none, none⟩, journal_value_bytes := b.journal_value_bytes + 46 } := by
    have hget : get_row b.coins (key n) = .ok none := by rw [h.coins]; rfl
    unfold enter_vacant
    rw [hbefore, Option.isSome_none, if_neg Bool.false_ne_true, hget]
    have hroom : ¬ over_journal sample_limits b.next
      (b.journal_value_bytes + 46 + ((none : Option (List UInt8)).getD []).length) := by
      rw [over_journal, h.journal, h.next, hlimits.1]
      change ¬ 1000000000000 < 0 + (4 + (108 + 46 * n + 46 + 0))
      omega
    unfold enter_before
    rw [hsurvivor]
    exact reject_bind_neg _ _ hroom
  have hput : put_survivor 1 (key n) sample_coin { b with
      before := b.before.insert (key n) ⟨none, none⟩, journal_value_bytes := b.journal_value_bytes + 46 } =
        .ok { b with
      before := b.before.insert (key n) ⟨none, none⟩
      journal_value_bytes := b.journal_value_bytes + 46
      survivors := b.survivors.insert (key n) (encode_coin sample_coin)
      next := { b.next with
        survivor_bytes := b.next.survivor_bytes - 0 + (36 + (encode_coin sample_coin).length)
        survivor_entries := b.next.survivor_entries + 1 } } := by
    have hcoin : ¬ (sample_coin.height ≠ 1 ∨ money_range sample_coin.out.value = false
        ∨ MAX_AUDIT_SCRIPT_BYTES < sample_coin.out.script_pubkey.length) := by decide
    unfold put_survivor
    rw [reject_bind_neg _ _ hcoin]
    rw [hsurvivor]
    exact reject_bind_neg _ _ (Nat.not_lt_zero _)
  refine ⟨{ b with
      before := b.before.insert (key n) ⟨none, none⟩
      journal_value_bytes := b.journal_value_bytes + 46
      survivors := b.survivors.insert (key n) (encode_coin sample_coin)
      next := { b.next with
        survivor_bytes := b.next.survivor_bytes - 0 + (36 + (encode_coin sample_coin).length)
        survivor_entries := b.next.survivor_entries + 1 } }, ?_, ?_⟩
  · unfold apply_survivor
    change (enter_vacant sample_limits (key n) (get_row b.coins (key n)) b >>= _) = _
    rw [hentered]
    change (put_survivor 1 (key n) sample_coin _ >>= _) = _
    rw [hput]
    refine reject_bind_neg _ _ ?_
    rw [h.next, hlimits.2.1, hlimits.2.2]
    change ¬ (1000000000000 < n + 1 ∨
      1000000000000 < n * (36 + (encode_coin sample_coin).length) - 0 + (36 + (encode_coin sample_coin).length))
    omega
  · refine ⟨h.coins, ?_, ?_, ?_, ?_, ?_⟩
    · have hkeys : (b.before.insert (key n) ⟨none, none⟩).keys.length = b.before.keys.length + 1 := by
        rw [AList.keys_insert, List.length_cons, List.erase_of_not_mem]
        exact AList.lookup_eq_none.mp hbefore
      rw [hkeys, h.count]
    · intro j image hj
      rw [lookup_insert_eq] at hj
      split at hj
      · exact (Option.some.inj hj).symm
      · exact h.images j image hj
    · intro i hi hlt
      have hne : key i ≠ key n := fun heq => absurd (key_inj hlt hn heq) (by omega)
      rw [lookup_insert_eq, lookup_insert_eq, if_neg hne, if_neg hne]
      exact h.fresh i (by omega) hlt
    · change b.journal_value_bytes + 46 = _
      rw [h.journal]
      omega
    · rw [h.next]
      rw [Nat.succ_mul, Nat.sub_zero]

theorem After.start : After 0 ⟨∅, ∅, ∅, 108, State.start sample_binding⟩ :=
  ⟨rfl, rfl, fun _ _ h => (by cases h), fun _ _ _ => ⟨rfl, rfl⟩, rfl, by rw [Nat.zero_mul]; rfl⟩

theorem updates_apply (hn : n ≤ 2 ^ 32) :
    ∃ b, (updates n).foldlM (apply_survivor sample_limits 1) ⟨∅, ∅, ∅, 108, State.start sample_binding⟩ = .ok b ∧
      After n b := by
  induction n with
  | zero => exact ⟨_, rfl, After.start⟩
  | succ n ih =>
    obtain ⟨b, hb, hafter⟩ := ih (by omega)
    obtain ⟨b', hb', hafter'⟩ := hafter.update (by omega)
    refine ⟨b', ?_, hafter'⟩
    rw [updates, List.range_succ, List.map_append, List.foldlM_append]
    change ((updates n).foldlM (apply_survivor sample_limits 1) _ >>= _) = _
    rw [hb, List.map_singleton]
    change (apply_survivor sample_limits 1 b _ >>= _) = _
    rw [hb']
    rfl

omit [PublicKeys] in
theorem encode_fresh_rows (rows : List (RunKey × BeforeImage)) (h : ∀ row ∈ rows, row.2 = ⟨none, none⟩) :
    ∃ body, encode_rows rows = .ok body ∧ body.length = 46 * rows.length := by
  induction rows with
  | nil => exact ⟨[], rfl, rfl⟩
  | cons row rows ih =>
    obtain ⟨body, hbody, hlen⟩ := ih fun r hr => h r (List.mem_cons_of_mem _ hr)
    obtain ⟨key, image⟩ := row
    cases h _ List.mem_cons_self
    refine ⟨RunFile.key_bytes key ++ encode_live none ++ le 4 U32_MAX ++ body, ?_, ?_⟩
    · rw [encode_rows, hbody]
      rfl
    · simp only [List.length_append, RunFile.length_key_bytes, length_le, hlen, List.length_cons]
      change 36 + 6 + 4 + _ = _
      omega

variable (sha256 : List UInt8 → Hash256)

omit [PublicKeys] in
theorem journal_of {before : Table RunKey BeforeImage} (hrows : ∀ row ∈ in_order before, row.2 = ⟨none, none⟩)
    (hcount : before.keys.length ≤ U32_MAX) :
    ∃ journal, encode_journal sha256 0 1 before none none = .ok journal ∧
      journal.length = 108 + 46 * before.keys.length := by
  obtain ⟨body, hbody, hlen⟩ := encode_fresh_rows (in_order before) hrows
  rw [length_in_order] at hlen
  obtain ⟨journal, hjournal⟩ : ∃ journal, encode_journal sha256 0 1 before none none = .ok journal := by
    unfold encode_journal
    rw [reject_bind_neg _ _ (not_lt.mpr hcount)]
    rw [hbody]
    exact ⟨_, rfl⟩
  obtain ⟨audit, stump, body', rfl, rfl, hbody', -, -, -, hbytes⟩ := encode_journal_fields hjournal
  rw [hbody] at hbody'
  cases hbody'
  refine ⟨journal, hjournal, ?_⟩
  rw [hbytes]
  simp only [List.length_append, length_le, Hash256.length_to_bytes, checksum, hlen, Option.getD_none,
    List.length_nil]
  omega

omit [PublicKeys] in
theorem no_prune (next : State) : prune_block_undo sample_binding 1 ∅ next = .ok (∅, next) := by
  rw [prune_block_undo]
  exact if_neg (by decide)

omit [PublicKeys] in
theorem ok_bind {α β : Type} (a : α) (f : α → Except SwiftLiveError β) : (Except.ok a >>= f) = f a := rfl

variable [Platform]

theorem stays (hn : n ≤ 2 ^ 32 - 1) (hmany : MAX_BLOCK_EVENTS < n) :
    ∃ self', SwiftLiveIndex.apply_block_inner sha256 sample_index (application n) = (.ok (), self') ∧
      SwiftLiveIndex.rewind_one sha256 self' 1 = (.error .Corrupt, self') := by
  obtain ⟨b, hb, hafter⟩ := updates_apply (n := n) (by omega)
  have hrows : ∀ row ∈ in_order b.before, row.2 = ⟨none, none⟩ :=
    fun row hrow => hafter.images row.1 row.2 (mem_in_order.mp hrow)
  obtain ⟨journal, hjournal, hlen⟩ := journal_of sha256 hrows (by rw [hafter.count]; unfold U32_MAX; omega)
  rw [hafter.count] at hlen
  obtain ⟨next, hnext⟩ : ∃ next : State, { b.next with
    undo_bytes := b.next.undo_bytes + (4 + journal.length) + 0, height := 1, hash := 1 } = next := ⟨_, rfl⟩
  obtain ⟨self', hself⟩ : ∃ self' : SwiftLiveIndex,
    sample_index.after ⟨b.coins, (sample_binding, sample_limits, next),
    (∅ : Table ℕ (List UInt8)).insert 1 journal, none, none, ∅, ∅, b.survivors⟩ next = self' := ⟨_, rfl⟩
  refine ⟨self', ?_, ?_⟩
  · have hroom : ¬ sample_limits.max_undo_encoded_bytes < b.next.undo_bytes + (4 + journal.length) + 0 := by
      rw [hafter.next, hlen]
      change ¬ 1000000000000 < 0 + (4 + (108 + 46 * n)) + 0
      omega
    have hfloor : b.next.undo_floor = 0 := by rw [hafter.next]; rfl
    have hrun : SwiftLiveIndex.block_transaction sha256 sample_index (application n) none none =
      .ok ((), self'.db, self'.state) := by
      change ((updates n).foldlM (apply_survivor sample_limits 1)
        ⟨∅, ∅, ∅, 108, State.start sample_binding⟩ >>= _) = _
      rw [hb]
      change (encode_journal sha256 0 1 b.before none none >>= _) = _
      rw [hjournal]
      have hundo : insert_new sample_index.db.undo (application n).height (some journal) =
          .ok ((∅ : Table ℕ (List UInt8)).insert 1 journal) := rfl
      have htx : insert_new sample_index.db.tx_meta (application n).height none = .ok ∅ := rfl
      have hblock : insert_new sample_index.db.block_undo (application n).height none = .ok ∅ := rfl
      have hprune : ∀ next, prune_block_undo sample_index.binding (application n).height ∅ next = .ok (∅, next) :=
        no_prune
      have hexpire : ∀ undo next,
        expire_journals ((application n).height - b.next.undo_floor - sample_index.limits.max_reorg_depth)
          undo next = .ok (undo, next) := by
        intro undo next
        rw [hfloor]
        rfl
      rw [ok_bind, hundo, ok_bind, htx, ok_bind, hblock, ok_bind]
      dsimp only
      rw [hprune, ok_bind]
      rw [hexpire, ok_bind, ← hself, ← hnext]
      exact reject_bind_neg _ _ hroom
    have hcheck : SwiftLiveIndex.checked_application sha256 sample_index (application n) =
        SwiftLiveIndex.block_transaction sha256 sample_index (application n) none none := rfl
    unfold SwiftLiveIndex.apply_block_inner
    rw [hcheck, hrun, ← hself]
    rfl
  · have htip : next.height = 1 ∧ next.hash = 1 ∧ next.undo_floor = 0 := by
      rw [← hnext]
      exact ⟨rfl, rfl, by dsimp only; rw [hafter.next]; rfl⟩
    have hdecode := decode_too_many hjournal (by rw [hafter.count]; exact hmany)
    have hrun : SwiftLiveIndex.rewind_transaction sha256 self' 1 = .error .Corrupt := by
      rw [← hself]
      unfold SwiftLiveIndex.rewind_transaction
      have habove : ¬ (next.height ≤ next.undo_floor ∨ next.hash ≠ 1) := by
        rw [htip.1, htip.2.1, htip.2.2]
        decide
      have hstored : ((∅ : Table ℕ (List UInt8)).insert 1 journal).lookup next.height = some journal := by
        rw [htip.1]
        exact AList.lookup_insert _
      refine (reject_bind_neg _ _ habove).trans ?_
      change ((((∅ : Table ℕ (List UInt8)).insert 1 journal).lookup next.height).elim _ _ >>= _) = _
      rw [hstored]
      change (decode_journal sha256 journal >>= _) = _
      rw [hdecode]
      rfl
    unfold SwiftLiveIndex.rewind_one
    rw [hrun]
    rfl

end

attribute [local instance] RunFile.PublicKeys.none Platform.sample

theorem flood_stays : Reach (fun _ => 0) (fun _ => True) sample_binding sample_limits [] sample_index ∧
    ¬ ∀ a self', SwiftLiveIndex.apply_block_inner (fun _ => 0) sample_index a = (.ok (), self') →
      ∃ self'', SwiftLiveIndex.rewind_one (fun _ => 0) self' a.block_hash = (.ok a.previous_hash, self'') ∧
        self''.view = sample_index.view := by
  refine ⟨.create create_sample, fun h => ?_⟩
  obtain ⟨self', happlied, hrewound⟩ := stays (n := 1000001) (fun _ => 0) (by norm_num) (by decide)
  obtain ⟨self'', hback, -⟩ := h _ self' happlied
  change SwiftLiveIndex.rewind_one (fun _ => 0) self' 1 = _ at hback
  rw [hrewound] at hback
  cases hback

end Flood

end SwiftLive

end AvilaNode
