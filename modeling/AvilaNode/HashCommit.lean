import AvilaNode.HashStore

/-! What the slots and the log hold, and the commits that change it. -/

namespace AvilaNode.HashCoins

open ByteStrings CoinCodec Function Layers LinearProbing

namespace Dat

variable {dat : Dat} {off len : ℕ}

theorem read_eq (h : off + len ≤ dat.len) : dat.read_exact_at len off =
    some ((dat.log.drop (off - DAT_HDR)).take len) := by
  rw [read_exact_at, if_pos h]

variable {bytes : List UInt8}

theorem length_read (hoff : DAT_HDR ≤ off) (h : dat.read_exact_at len off = some bytes) : bytes.length = len := by
  rw [read_exact_at, Dat.len] at h
  split_ifs at h with hin
  cases h
  rw [List.length_take, List.length_drop]
  omega

theorem read_append (hoff : DAT_HDR ≤ off) (h : off + len ≤ dat.len) (generation : ℕ) (more : List UInt8) :
    Dat.read_exact_at ⟨generation, dat.log ++ more⟩ len off = dat.read_exact_at len off := by
  rw [read_eq h]
  rw [Dat.len] at h
  rw [read_eq (by rw [Dat.len, List.length_append]; omega), List.drop_append_of_le_length (by omega),
    List.take_append_of_le_length (by rw [List.length_drop]; omega)]

theorem read_appended (dat : Dat) (generation : ℕ) (bytes : List UInt8) :
    Dat.read_exact_at ⟨generation, dat.log ++ bytes⟩ bytes.length dat.len = some bytes := by
  rw [read_eq (by simp [Dat.len, Nat.add_assoc]), Dat.len, Nat.add_sub_cancel_left, List.drop_left, List.take_length]

section

variable (hoff : DAT_HDR ≤ off)
include hoff

theorem len_write (h : off + bytes.length ≤ dat.len) :
    (dat.write_all_at bytes off).len = dat.len := by
  rw [Dat.len] at h
  rw [Dat.len, Dat.len, write_all_at, List.length_append, List.length_append, List.length_take, List.length_drop]
  omega

theorem read_write (h : off + bytes.length ≤ dat.len) :
    (dat.write_all_at bytes off).read_exact_at bytes.length off = some bytes := by
  rw [read_eq (by rwa [len_write hoff h]), write_all_at, List.append_assoc]
  rw [Dat.len] at h
  rw [List.drop_left' (by rw [List.length_take]; omega), List.take_left]

theorem read_write_apart {off' len' : ℕ} (h : off + bytes.length ≤ dat.len) (hoff' : DAT_HDR ≤ off')
    (h' : off' + len' ≤ dat.len) (hapart : off' + len' ≤ off ∨ off + bytes.length ≤ off') :
    (dat.write_all_at bytes off).read_exact_at len' off' = dat.read_exact_at len' off' := by
  rw [read_eq (by rwa [len_write hoff h]), read_eq h', write_all_at]
  rw [Dat.len] at h h'
  have htake : (dat.log.take (off - DAT_HDR)).length = off - DAT_HDR := by
    rw [List.length_take]
    omega
  rcases hapart with hapart | hapart
  · rw [List.append_assoc, List.drop_append_of_le_length (by omega),
      List.take_append_of_le_length (by rw [List.length_drop]; omega), List.drop_take, List.take_take,
        Nat.min_eq_left (by omega)]
  · rw [List.drop_append, List.drop_of_length_le (by rw [List.length_append]; omega), List.nil_append, List.drop_drop,
      List.length_append, htake]
    congr 3
    omega

theorem write_append {more : List UInt8} (h : off + bytes.length ≤ dat.len) :
    (dat.write_all_at bytes off).log ++ more =
    (Dat.write_all_at ⟨dat.generation, dat.log ++ more⟩ bytes off).log := by
  rw [Dat.len] at h
  rw [write_all_at, write_all_at]
  rw [List.take_append_of_le_length (by omega), List.drop_append_of_le_length (by omega)]
  simp only [List.append_assoc]

end

end Dat

structure Readable [PublicKeys] (coin : Coin) : Prop where
  decodes : decode_coin (encode_coin coin) = some coin
  short : 4 + (encode_coin coin).length < 0x80000000

namespace HashStore

variable [PublicKeys] {store : HashStore} {t t' : ℕ → Option Slot} {data data' : Dat} {m : Table OutPoint Coin}

theorem length_stored (store : HashStore) (key : OutPoint) (coin : Coin) :
    (store.stored key coin).length = 4 + (encode_coin coin).length := by
  rw [stored, List.length_append, length_le]

theorem checked_stored {key : OutPoint} {coin : Coin} (h : Readable coin) :
    store.checked key (store.stored key coin) = some coin := by
  have hlt : rec_tag key (encode_coin coin) store.k0 store.k1 < 256 ^ 4 := by
    rw [rec_tag]
    exact BitVec.isLt _
  rw [checked, length_stored, stored, List.take_left' (length_le 4 _), List.drop_left' (length_le 4 _), value_le hlt,
    if_neg (by simp), h.decodes]

structure Filled (store : HashStore) (t : ℕ → Option Slot) (data : Dat) (m : Table OutPoint Coin) : Prop where
  probed : Probed store.cap Slot.key (store.home store.cap) t
  coin : ∀ s, Held store.cap t s → ∃ c, m.lookup s.key = some c ∧ data.record s.slot_rec = some (store.stored s.key c)
  held : ∀ key c, m.lookup key = some c → ∃ s, Held store.cap t s ∧ s.key = key
  inside : ∀ s off len, Held store.cap t s → s.slot_rec = .spilled off len → DAT_HDR ≤ off ∧ off + len ≤ data.len
  apart : ∀ s s' off len off' len', Held store.cap t s → Held store.cap t s' → s.key ≠ s'.key →
    s.slot_rec = .spilled off len → s'.slot_rec = .spilled off' len' → off + len ≤ off' ∨ off' + len' ≤ off

theorem Filled.absent_iff (h : store.Filled t data m) {key : OutPoint} :
    m.lookup key = none ↔ ∀ s, Held store.cap t s → s.key ≠ key := by
  constructor
  · rintro hnone s hs rfl
    obtain ⟨c, hc, -⟩ := h.coin s hs
    rw [hnone] at hc
    cases hc
  · intro habsent
    cases hlookup : m.lookup key with
    | none => rfl
    | some c =>
      obtain ⟨s, hs, hkey⟩ := h.held key c hlookup
      exact absurd hkey (habsent s hs)

theorem Filled.put (h : store.Filled t data m) {key : OutPoint} {coin : Coin} {r : Rec}
    (hprobed : Probed store.cap Slot.key (store.home store.cap) t')
    (hheld : ∀ s, Held store.cap t' s ↔ s = ⟨key, r⟩ ∨ Held store.cap t s ∧ s.key ≠ key)
    (hnew : data'.record r = some (store.stored key coin)) (hlen : data.len ≤ data'.len)
    (hin : ∀ off len, r = .spilled off len → DAT_HDR ≤ off ∧ off + len ≤ data'.len)
    (hkeep : ∀ s, Held store.cap t s → s.key ≠ key → data'.record s.slot_rec = data.record s.slot_rec)
    (hapart : ∀ s off len off' len', Held store.cap t s → s.key ≠ key → r = .spilled off len →
      s.slot_rec = .spilled off' len' → off + len ≤ off' ∨ off' + len' ≤ off) :
    store.Filled t' data' (m.insert key coin) := by
  refine ⟨hprobed, ?_, ?_, ?_, ?_⟩
  · intro s hs
    rw [lookup_insert_eq]
    rcases (hheld s).mp hs with rfl | ⟨hs, hne⟩
    · exact ⟨coin, if_pos rfl, hnew⟩
    · rw [if_neg hne, hkeep s hs hne]
      exact h.coin s hs
  · intro k c hk
    rw [lookup_insert_eq] at hk
    split_ifs at hk with hkey
    · exact ⟨⟨key, r⟩, (hheld _).mpr (.inl rfl), hkey.symm⟩
    · obtain ⟨s, hs, rfl⟩ := h.held k c hk
      exact ⟨s, (hheld s).mpr (.inr ⟨hs, hkey⟩), rfl⟩
  · intro s off len hs hspill
    rcases (hheld s).mp hs with rfl | ⟨hs, -⟩
    · exact hin off len hspill
    · exact (h.inside s off len hs hspill).imp_right fun hle => hle.trans hlen
  · intro s s' off len off' len' hs hs' hne hspill hspill'
    rcases (hheld s).mp hs with rfl | ⟨hs, hkey⟩ <;> rcases (hheld s').mp hs' with rfl | ⟨hs', hkey'⟩
    · exact absurd rfl hne
    · exact hapart s' off len off' len' hs' hkey' hspill hspill'
    · exact (hapart s off' len' off len hs hkey hspill' hspill).symm
    · exact h.apart s s' off len off' len' hs hs' hne hspill hspill'

theorem Filled.erase (h : store.Filled t data m) {key : OutPoint}
    (hprobed : Probed store.cap Slot.key (store.home store.cap) t')
    (hheld : ∀ s, Held store.cap t' s ↔ Held store.cap t s ∧ s.key ≠ key) :
    store.Filled t' data (m.erase key) := by
  refine ⟨hprobed, ?_, ?_, ?_, ?_⟩
  · intro s hs
    obtain ⟨hs, hne⟩ := (hheld s).mp hs
    rw [lookup_erase_eq, if_neg hne]
    exact h.coin s hs
  · intro k c hk
    rw [lookup_erase_eq] at hk
    split_ifs at hk with hkey
    obtain ⟨s, hs, rfl⟩ := h.held k c hk
    exact ⟨s, (hheld s).mpr ⟨hs, hkey⟩, rfl⟩
  · exact fun s off len hs => h.inside s off len ((hheld s).mp hs).1
  · exact fun s s' off len off' len' hs hs' =>
      h.apart s s' off len off' len' ((hheld s).mp hs).1 ((hheld s').mp hs').1

def whole_log (c : Commit) : Dat := ⟨c.dat.generation, c.dat.log ++ c.dat_appends⟩

omit [PublicKeys] in
theorem len_whole_log (c : Commit) : (whole_log c).len = c.dat.len + c.dat_appends.length := by
  rw [Dat.len, Dat.len, whole_log, List.length_append, Nat.add_assoc]

structure InCommit (store : HashStore) (c : Commit) (m : Table OutPoint Coin) (todo : List OutPoint) : Prop where
  filled : store.Filled (store.slot_at c.stage) (whole_log c) m
  staged : store.Inside c.stage
  written : ∀ s off len, Held store.cap (store.slot_at c.stage) s → s.key ∈ todo → s.slot_rec = .spilled off len →
    off + len ≤ c.dat.len
  count : (load store.cap (store.slot_at c.stage) : ℤ) = store.count + c.delta
  room : (load store.cap (store.slot_at c.stage) + todo.length) * 10 ≤ store.cap * 7
  generation : c.dat.generation = store.dat.generation

structure Spot (store : HashStore) (t : ℕ → Option Slot) (key : OutPoint) (p more : ℕ) : Prop where
  lt : p < store.cap
  probed : ∀ r, Probed store.cap Slot.key (store.home store.cap) (update t p (some ⟨key, r⟩))
  held : ∀ r s, Held store.cap (update t p (some ⟨key, r⟩)) s ↔ s = ⟨key, r⟩ ∨ Held store.cap t s ∧ s.key ≠ key
  load : ∀ r, load store.cap (update t p (some ⟨key, r⟩)) = load store.cap t + more

variable {p : ℕ}

omit [PublicKeys] in
theorem spot_held (ht : Probed store.cap Slot.key (store.home store.cap) t) {s : Slot} (hp : p < store.cap)
    (hslot : t p = some s) : store.Spot t s.key p 0 where
  lt := hp
  probed r := ht.set hp hslot rfl
  held r x := ht.held_set hp hslot rfl
  load r := by
    have h := @load_update _ _ t p hp (some (⟨s.key, r⟩ : Slot))
    rw [hslot] at h
    simpa using h

omit [PublicKeys] in
theorem spot_absent (ht : Probed store.cap Slot.key (store.home store.cap) t) {key : OutPoint} (hp : p < store.cap)
    (hnone : t p = none) (habsent : ∀ s, Held store.cap t s → s.key ≠ key)
    (hpath : ∀ q < store.cap, Before (store.home store.cap key) p q → t q ≠ none)
    (hroom : load store.cap t + 1 < store.cap) :
    store.Spot t key p 1 where
  lt := hp
  probed r := ht.put hp hnone habsent hpath hroom
  held r x := (held_put hp hnone).trans
    ⟨fun h => h.imp_right fun hx => ⟨hx, habsent x hx⟩, fun h => h.imp_right And.left⟩
  load r := by
    have h := @load_update _ _ t p hp (some (⟨key, r⟩ : Slot))
    rw [hnone] at h
    simpa using h

variable {c : Commit} {key : OutPoint} {coin : Coin} {todo : List OutPoint}

theorem InCommit.place (h : store.InCommit c m (key :: todo)) (hkey : key ∉ todo) (hc : Readable coin) {more : ℕ}
    (hspot : store.Spot (store.slot_at c.stage) key p more) (hmore : more ≤ 1) (delta : ℤ)
    (hdelta : delta = c.delta + more) :
    store.InCommit { stage_record c p key (store.stored key coin) with delta := delta } (m.insert key coin) todo := by
  have hroom := h.room
  rw [List.length_cons] at hroom
  have hlen := length_stored store key coin
  have hshort := hc.short
  unfold stage_record
  split_ifs with hinline
  · refine ⟨?_, h.staged.insert hspot.lt _, ?_, ?_, ?_, h.generation⟩
    · rw [slot_at_insert]
      refine h.filled.put (hspot.probed _) (hspot.held _) rfl (le_refl _) ?_ (fun _ _ _ => rfl) ?_
      · intro off len hspill
        cases hspill
      · intro s off len off' len' _ _ hspill
        cases hspill
    · intro s off len hs htodo hspill
      rw [slot_at_insert] at hs
      rcases (hspot.held _ s).mp hs with rfl | ⟨hs, -⟩
      · cases hspill
      · exact h.written s off len hs (List.mem_cons_of_mem _ htodo) hspill
    · have hcount := h.count
      rw [slot_at_insert, hspot.load]
      dsimp only
      omega
    · rw [slot_at_insert, hspot.load]
      omega
  · have hmod : (store.stored key coin).length % 0x100000000 = (store.stored key coin).length :=
      Nat.mod_eq_of_lt (by omega)
    have hdata : whole_log { c with
        stage := c.stage.insert p (some ⟨key, .spilled (c.dat.len + c.dat_appends.length)
          ((store.stored key coin).length % 0x100000000)⟩)
        dat_appends := c.dat_appends ++ store.stored key coin, delta := delta } =
        ⟨(whole_log c).generation, (whole_log c).log ++ store.stored key coin⟩ := by
      simp [whole_log]
    refine ⟨?_, h.staged.insert hspot.lt _, ?_, ?_, ?_, h.generation⟩
    · rw [slot_at_insert, hdata, hmod, ← len_whole_log]
      refine h.filled.put (hspot.probed _) (hspot.held _) (Dat.read_appended (whole_log c) _ _) ?_ ?_ ?_ ?_
      · simp [Dat.len]
      · intro off len hspill
        cases hspill
        simp [Dat.len, Nat.add_assoc]
      · intro s hs hne
        cases hrec : s.slot_rec with
        | inline b => rfl
        | spilled off len =>
          obtain ⟨hoff, hin⟩ := h.filled.inside s off len hs hrec
          exact Dat.read_append hoff hin _ _
      · intro s off len off' len' hs hne hspill hspill'
        cases hspill
        exact .inr (h.filled.inside s off' len' hs hspill').2
    · intro s off len hs htodo hspill
      rw [slot_at_insert] at hs
      rcases (hspot.held _ s).mp hs with rfl | ⟨hs, -⟩
      · exact absurd htodo hkey
      · exact h.written s off len hs (List.mem_cons_of_mem _ htodo) hspill
    · have hcount := h.count
      rw [slot_at_insert, hspot.load]
      dsimp only
      omega
    · rw [slot_at_insert, hspot.load]
      omega

theorem InCommit.overwrite (h : store.InCommit c m (key :: todo)) (hkey : key ∉ todo) (hc : Readable coin)
    {s : Slot} (hp : p < store.cap) (hslot : store.slot_at c.stage p = some s) (hs : s.key = key) :
    store.InCommit (HashStore.overwrite c p s (store.stored key coin)) (m.insert key coin) todo := by
  subst hs
  have hheld : Held store.cap (store.slot_at c.stage) s := ⟨p, hp, hslot⟩
  have hspot := spot_held h.filled.probed hp hslot
  have hplace := h.place hkey hc hspot (Nat.zero_le 1) c.delta (by simp)
  have hsame : { stage_record c p s.key (store.stored s.key coin) with delta := c.delta } =
      stage_record c p s.key (store.stored s.key coin) := by
    unfold stage_record
    split_ifs <;> rfl
  rw [hsame] at hplace
  unfold HashStore.overwrite
  cases hrec : s.slot_rec with
  | inline b => exact hplace
  | spilled off old_len =>
    dsimp only
    by_cases hfits : PAYLOAD < (store.stored s.key coin).length ∧
      (store.stored s.key coin).length % 0x100000000 ≤ old_len
    · rw [if_pos hfits]
      obtain ⟨-, hle⟩ := hfits
      have hroom := h.room
      rw [List.length_cons] at hroom
      have hshort := hc.short
      have hstored := length_stored store s.key coin
      have hmod : (store.stored s.key coin).length % 0x100000000 = (store.stored s.key coin).length :=
        Nat.mod_eq_of_lt (by omega)
      rw [hmod] at hle ⊢
      obtain ⟨hoff, hold⟩ := h.filled.inside s off old_len hheld hrec
      have hin := h.written s off old_len hheld List.mem_cons_self hrec
      have hlog : whole_log { c with dat := c.dat.write_all_at (store.stored s.key coin) off } =
          (whole_log c).write_all_at (store.stored s.key coin) off := by
        rw [whole_log]
        rw [Dat.write_append hoff (by omega)]
        rfl
      have hview : store.slot_at (if (store.stored s.key coin).length ≠ old_len then
          c.stage.insert p (some { s with slot_rec := .spilled off (store.stored s.key coin).length }) else c.stage) =
          update (store.slot_at c.stage) p (some ⟨s.key, .spilled off (store.stored s.key coin).length⟩) := by
        split_ifs with hsize
        · exact slot_at_insert _ _ _ _
        · rw [not_not] at hsize
          rw [hsize, ← hrec, update_eq_self_iff.mpr]
          exact hslot.symm
      have hwhole : off + (store.stored s.key coin).length ≤ (whole_log c).len := by
        rw [len_whole_log]
        omega
      have hapart : ∀ x off' len', Held store.cap (store.slot_at c.stage) x → x.key ≠ s.key →
          x.slot_rec = .spilled off' len' → off + (store.stored s.key coin).length ≤ off' ∨ off' + len' ≤ off := by
        intro x off' len' hx hne hspill
        rcases h.filled.apart x s off' len' off old_len hx hheld hne hspill hrec with hb | hb
        · exact .inr hb
        · exact .inl (by omega)
      refine ⟨?_, ?_, ?_, ?_, ?_, h.generation⟩
      · rw [hview]
        change store.Filled _ (whole_log { c with dat := c.dat.write_all_at (store.stored s.key coin) off }) _
        rw [hlog]
        refine h.filled.put (hspot.probed _) (hspot.held _) (Dat.read_write hoff hwhole)
          (Dat.len_write hoff hwhole).ge ?_ ?_ ?_
        · intro off' len' hspill
          cases hspill
          rw [Dat.len_write hoff hwhole]
          exact ⟨hoff, hwhole⟩
        · intro x hx hne
          cases hxrec : x.slot_rec with
          | inline b => rfl
          | spilled off' len' =>
            obtain ⟨hoff', hin'⟩ := h.filled.inside x off' len' hx hxrec
            exact Dat.read_write_apart hoff hwhole hoff' hin' (hapart x off' len' hx hne hxrec).symm
        · intro x off₁ len₁ off' len' hx hne hspill hxrec
          cases hspill
          exact hapart x off' len' hx hne hxrec
      · dsimp only
        split_ifs
        · exact h.staged.insert hp _
        · exact h.staged
      · intro x off' len' hx htodo hspill
        rw [hview] at hx
        rw [Dat.len_write hoff (by omega)]
        rcases (hspot.held _ x).mp hx with rfl | ⟨hx, -⟩
        · exact absurd htodo hkey
        · exact h.written x off' len' hx (List.mem_cons_of_mem _ htodo) hspill
      · have hcount := h.count
        rw [hview, hspot.load]
        omega
      · dsimp only
        rw [hview, hspot.load]
        omega
    · rw [if_neg hfits]
      exact hplace

theorem InCommit.put (hcap : ∃ e, store.cap = 2 ^ e) (h : store.InCommit c m (key :: todo)) (hkey : key ∉ todo)
    (hc : Readable coin) : ∃ c', store.put c key coin = .ok c' ∧ store.InCommit c' (m.insert key coin) todo := by
  have hprobe := probe_staged_eq hcap c.stage key
  by_cases habsent : ∀ s, Held store.cap (store.slot_at c.stage) s → s.key ≠ key
  · obtain ⟨p, hp, hfound, hnone, hpath⟩ := h.filled.probed.probe_absent habsent
    have hroom := h.room
    rw [List.length_cons] at hroom
    rw [hfound] at hprobe
    have hspot := spot_absent h.filled.probed hp hnone habsent hpath (by omega)
    refine ⟨_, ?_, h.place hkey hc hspot (le_refl 1) (c.delta + 1) (by simp)⟩
    rw [HashStore.put, hprobe]
    have hdelta : (stage_record c p key (store.stored key coin)).delta = c.delta := by
      unfold stage_record
      split_ifs <;> rfl
    change Except.ok _ = _
    rw [hdelta]
  · push Not at habsent
    obtain ⟨s, ⟨p, hp, hslot⟩, rfl⟩ := habsent
    rw [h.filled.probed.probe_held hp hslot] at hprobe
    refine ⟨_, ?_, h.overwrite hkey hc hp hslot rfl⟩
    rw [HashStore.put, hprobe]
    simp [outcome, hslot, bind, Except.bind, pure, Except.pure]

theorem InCommit.delete (hcap : ∃ e, store.cap = 2 ^ e) (h : store.InCommit c m (key :: todo)) :
    ∃ c', store.delete c key = .ok c' ∧ store.InCommit c' (m.erase key) todo := by
  have hprobe := probe_staged_eq hcap c.stage key
  have hroom := h.room
  rw [List.length_cons] at hroom
  by_cases habsent : ∀ s, Held store.cap (store.slot_at c.stage) s → s.key ≠ key
  · obtain ⟨p, hp, hfound, hnone, hpath⟩ := h.filled.probed.probe_absent habsent
    rw [hfound] at hprobe
    refine ⟨c, ?_, ⟨?_, h.staged, ?_, h.count, by omega, h.generation⟩⟩
    · rw [HashStore.delete, hprobe]
      rfl
    · exact h.filled.erase h.filled.probed fun s => ⟨fun hs => ⟨hs, habsent s hs⟩, And.left⟩
    · exact fun s off len hs htodo => h.written s off len hs (List.mem_cons_of_mem _ htodo)
  · push Not at habsent
    obtain ⟨s, ⟨p, hp, hslot⟩, rfl⟩ := habsent
    rw [h.filled.probed.probe_held hp hslot] at hprobe
    obtain ⟨t', hole', hshift, hhole, hprobed, hheld, hload⟩ := h.filled.probed.remove hp hslot
    obtain ⟨stage', hback, hview, hinside⟩ := shift_back_eq hcap h.staged hp (next_lt hp) hshift
    refine ⟨{ c with stage := stage', delta := c.delta - 1 }, ?_, ⟨?_, hinside, ?_, ?_, ?_, h.generation⟩⟩
    · rw [HashStore.delete, hprobe]
      change (store.shift_back store.cap c.stage p (wrap store.cap (p + 1))).bind _ = _
      rw [wrap_eq_next hcap hp, hback]
      rfl
    · rw [hview]
      exact h.filled.erase hprobed hheld
    · intro x off len hx htodo
      rw [hview] at hx
      exact h.written x off len ((hheld x).mp hx).1 (List.mem_cons_of_mem _ htodo)
    · have hcount := h.count
      dsimp only
      rw [hview]
      omega
    · dsimp only
      rw [hview]
      omega

theorem InCommit.run (hcap : ∃ e, store.cap = 2 ^ e) {es : List (Sigma fun _ : OutPoint => Option Coin)}
    (h : store.InCommit c m (es.map Sigma.fst)) (hnodup : (es.map Sigma.fst).Nodup)
    (hreadable : ∀ key coin, ⟨key, some coin⟩ ∈ es → Readable coin) :
    ∃ c', (es.map fun e => (e.1, e.2)).foldlM store.commit_entry c = .ok c' ∧
      store.InCommit c' (applyEntries m es) [] := by
  induction es generalizing c m with
  | nil => exact ⟨c, rfl, h⟩
  | cons e es ih =>
    obtain ⟨key, entry⟩ := e
    rw [List.map_cons, List.nodup_cons] at hnodup
    have hrest : ∀ key coin, ⟨key, some coin⟩ ∈ es → Readable coin := fun key coin he =>
      hreadable key coin (List.mem_cons_of_mem _ he)
    have hstep : ∃ c', store.commit_entry c (key, entry) = .ok c' ∧
        store.InCommit c' (applyEntry m key entry) (es.map Sigma.fst) := by
      cases entry with
      | some coin => exact h.put hcap hnodup.1 (hreadable key coin List.mem_cons_self)
      | none => exact h.delete hcap
    obtain ⟨c', hentry, h'⟩ := hstep
    obtain ⟨c'', hrun, h''⟩ := ih h' hnodup.2 hrest
    refine ⟨c'', ?_, h''⟩
    rw [List.map_cons, List.foldlM_cons, hentry]
    exact hrun

end HashStore

end AvilaNode.HashCoins
