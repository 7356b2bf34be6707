import AvilaNode.BeforeImages
import AvilaNode.SwiftLive

/-! What one event, one survivor update and one reverted row do to the rows and their counters. -/

namespace AvilaNode

open ByteStrings CoinCodec Layers BeforeImages

namespace SwiftLive

theorem foldlM_invariant {α β ε : Type} {f : β → α → Except ε β} {P : β → Prop} {xs : List α} {b b' : β}
    (hstep : ∀ x ∈ xs, ∀ b b', P b → f b x = .ok b' → P b') (hb : P b) (h : xs.foldlM f b = .ok b') : P b' := by
  induction xs generalizing b with
  | nil =>
    cases h
    exact hb
  | cons x xs ih =>
    rw [List.foldlM_cons] at h
    obtain ⟨c, hc, h⟩ := Mempool.except_bind_ok h
    exact ih (fun y hy => hstep y (List.mem_cons_of_mem _ hy)) (hstep x List.mem_cons_self b c hb hc) h

def LiveRow (v : List UInt8) : Prop :=
    ∃ row : LiveCoinMeta, row.height ≤ U32_MAX ∧ row.live = true ∧ encode_row row = v

theorem LiveRow.decode {v : List UInt8} (h : LiveRow v) : ∃ row, decode_row v = some row ∧ encode_row row = v := by
  obtain ⟨row, hheight, hlive, rfl⟩ := h
  exact ⟨row, decode_encode_row hheight hlive, rfl⟩

theorem LiveRow.length {v : List UInt8} (h : LiveRow v) : v.length = ROW_LEN := by
  obtain ⟨row, -, -, rfl⟩ := h
  exact length_encode_row row

def LiveRows (coins : Table RunKey (List UInt8)) : Prop := ∀ key v, coins.lookup key = some v → LiveRow v

def row_bytes (v : List UInt8) : ℕ := 36 + v.length

def record_bytes (v : List UInt8) : ℕ := 4 + v.length

section

variable {K : Type} [DecidableEq K] {t : Table K (List UInt8)} {k : K} {v w : List UInt8}

omit [DecidableEq K] in
theorem length_keys (t : Table K (List UInt8)) : t.keys.length = total (fun _ => 1) t := by
  simp [total, keys_eq_toList]

theorem length_keys_erase (h : t.lookup k = some v) : t.keys.length = 1 + (t.erase k).keys.length := by
  rw [length_keys, length_keys, total_erase h]

theorem length_keys_insert_fresh (h : t.lookup k = none) (v : List UInt8) :
    (t.insert k v).keys.length = 1 + t.keys.length := by
  rw [length_keys, length_keys, total_insert_fresh h]

theorem length_keys_insert_same (h : t.lookup k = some v) (w : List UInt8) : (t.insert k w).keys.length =
    t.keys.length := by
  rw [length_keys, length_keys]
  exact total_insert_same h rfl

theorem total_replace (f : List UInt8 → ℕ) (h : t.lookup k = some v) (w : List UInt8) :
    total f (t.insert k w) + f v = total f t + f w := by
  rw [total_erase h, total_insert]
  omega

theorem total_erase_none {f : List UInt8 → ℕ} (h : t.lookup k = none) : total f (t.erase k) = total f t := by
  rw [total, toList_erase_none h, total]

end

structure Counted (coins survivors : Table RunKey (List UInt8)) (next : State) : Prop where
  live_entries : next.live_entries = coins.keys.length
  live_bytes : next.live_bytes = total row_bytes coins
  survivor_entries : next.survivor_entries = survivors.keys.length
  survivor_bytes : next.survivor_bytes = total row_bytes survivors

structure State.SameTip (s t : State) : Prop where
  undo_bytes : t.undo_bytes = s.undo_bytes
  undo_floor : t.undo_floor = s.undo_floor
  complete : t.complete = s.complete
  height : t.height = s.height
  hash : t.hash = s.hash

theorem State.SameTip.refl (s : State) : s.SameTip s := ⟨rfl, rfl, rfl, rfl, rfl⟩

theorem State.SameTip.trans {s t u : State} (h : s.SameTip t) (h' : t.SameTip u) : s.SameTip u where
  undo_bytes := h'.undo_bytes.trans h.undo_bytes
  undo_floor := h'.undo_floor.trans h.undo_floor
  complete := h'.complete.trans h.complete
  height := h'.height.trans h.height
  hash := h'.hash.trans h.hash

def image (coins survivors : Table RunKey (List UInt8)) (key : RunKey) : BeforeImage :=
  ⟨coins.lookup key, survivors.lookup key⟩

theorem get_row_ok {coins : Table RunKey (List UInt8)} (hrows : LiveRows coins) (key : RunKey) :
    ∃ current, get_row coins key = .ok current ∧ current.map encode_row = coins.lookup key := by
  unfold get_row
  cases h : coins.lookup key with
  | none => exact ⟨none, rfl, rfl⟩
  | some v =>
    obtain ⟨row, hrow, hv⟩ := (hrows key v h).decode
    refine ⟨some row, ?_, by rw [Option.map_some, hv]⟩
    dsimp only
    rw [hrow]

theorem LiveRows.insert {coins : Table RunKey (List UInt8)} (h : LiveRows coins) (key : RunKey) {v : List UInt8}
    (hv : LiveRow v) : LiveRows (coins.insert key v) := by
  intro j w hw
  rw [lookup_insert_eq] at hw
  split at hw
  · cases hw
    exact hv
  · exact h j w hw

theorem LiveRows.erase {coins : Table RunKey (List UInt8)} (h : LiveRows coins) (key : RunKey) :
    LiveRows (coins.erase key) := by
  intro j w hw
  rw [lookup_erase_eq] at hw
  split at hw
  · cases hw
  · exact h j w hw

theorem image_insert_live (coins survivors : Table RunKey (List UInt8)) (key : RunKey) (v : List UInt8) :
    image (coins.insert key v) survivors = put (image coins survivors) key ⟨some v, survivors.lookup key⟩ := by
  funext j
  unfold image put
  rw [lookup_insert_eq]
  split
  · next hj => rw [hj]
  · rfl

theorem image_erase_live (coins survivors : Table RunKey (List UInt8)) (key : RunKey) :
    image (coins.erase key) survivors = put (image coins survivors) key ⟨none, survivors.lookup key⟩ := by
  funext j
  unfold image put
  rw [lookup_erase_eq]
  split
  · next hj => rw [hj]
  · rfl

theorem image_insert_survivor (coins survivors : Table RunKey (List UInt8)) (key : RunKey) (v : List UInt8) :
    image coins (survivors.insert key v) = put (image coins survivors) key ⟨coins.lookup key, some v⟩ := by
  funext j
  unfold image put
  rw [lookup_insert_eq]
  split
  · next hj => rw [hj]
  · rfl

theorem image_erase_survivor (coins survivors : Table RunKey (List UInt8)) (key : RunKey) :
    image coins (survivors.erase key) = put (image coins survivors) key ⟨coins.lookup key, none⟩ := by
  funext j
  unfold image put
  rw [lookup_erase_eq]
  split
  · next hj => rw [hj]
  · rfl

theorem put_other (now : RunKey → BeforeImage) (key : RunKey) (row : BeforeImage) (j : RunKey) (h : j ≠ key) :
    put now key row j = now j := by rw [put, if_neg h]

section

variable {coins survivors : Table RunKey (List UInt8)} {next : State} {key : RunKey} {v w : List UInt8}

section

variable (h : Counted coins survivors next)
include h

theorem Counted.erase_live (hrows : LiveRows coins) (hv : coins.lookup key = some v) :
    1 ≤ next.live_entries ∧ 36 + ROW_LEN ≤ next.live_bytes ∧ Counted (coins.erase key) survivors
      { next with live_entries := next.live_entries - 1, live_bytes := next.live_bytes - (36 + ROW_LEN) } := by
  have hentries := h.live_entries
  have hbytes := h.live_bytes
  rw [length_keys_erase hv] at hentries
  rw [total_erase hv, row_bytes, (hrows key v hv).length] at hbytes
  refine ⟨by omega, by omega, ?_, ?_, h.survivor_entries, h.survivor_bytes⟩
  · dsimp only
    omega
  · dsimp only
    omega

theorem Counted.insert_live (hv : coins.lookup key = none) (hw : w.length = ROW_LEN) :
    Counted (coins.insert key w) survivors
      { next with live_entries := next.live_entries + 1, live_bytes := next.live_bytes + (36 + ROW_LEN) } := by
  refine ⟨?_, ?_, h.survivor_entries, h.survivor_bytes⟩
  · rw [length_keys_insert_fresh hv, h.live_entries]
    exact Nat.add_comm _ _
  · rw [total_insert_fresh hv, h.live_bytes, row_bytes, hw]
    exact Nat.add_comm _ _

theorem Counted.replace_live (hv : coins.lookup key = some v) (hlen : w.length = v.length) :
    Counted (coins.insert key w) survivors next := by
  refine ⟨?_, ?_, h.survivor_entries, h.survivor_bytes⟩
  · rw [length_keys_insert_same hv, h.live_entries]
  · rw [total_insert_same hv (by rw [row_bytes, row_bytes, hlen]), h.live_bytes]

theorem Counted.erase_survivor (hv : survivors.lookup key = some v) :
    1 ≤ next.survivor_entries ∧ 36 + v.length ≤ next.survivor_bytes ∧ Counted coins (survivors.erase key)
      { next with survivor_entries := next.survivor_entries - 1, survivor_bytes :=
        next.survivor_bytes - (36 + v.length) } := by
  have hentries := h.survivor_entries
  have hbytes := h.survivor_bytes
  rw [length_keys_erase hv] at hentries
  rw [total_erase hv, row_bytes] at hbytes
  refine ⟨by omega, by omega, h.live_entries, h.live_bytes, ?_, ?_⟩
  · dsimp only
    omega
  · dsimp only
    omega

theorem Counted.insert_survivor (hv : survivors.lookup key = none) (w : List UInt8) :
    Counted coins (survivors.insert key w)
      { next with survivor_entries := next.survivor_entries + 1, survivor_bytes :=
        next.survivor_bytes + (36 + w.length) } := by
  refine ⟨h.live_entries, h.live_bytes, ?_, ?_⟩
  · rw [length_keys_insert_fresh hv, h.survivor_entries]
    exact Nat.add_comm _ _
  · rw [total_insert_fresh hv, h.survivor_bytes, row_bytes]
    exact Nat.add_comm _ _

theorem Counted.replace_survivor (hv : survivors.lookup key = some v) (w : List UInt8) :
    36 + v.length ≤ next.survivor_bytes ∧ Counted coins (survivors.insert key w)
      { next with survivor_bytes := next.survivor_bytes - (36 + v.length) + (36 + w.length) } := by
  have hbytes := h.survivor_bytes
  have hold := total_erase (f := row_bytes) hv
  have hnew := total_replace row_bytes hv w
  rw [row_bytes] at hold hnew
  rw [row_bytes] at hnew
  refine ⟨by omega, h.live_entries, h.live_bytes, ?_, ?_⟩
  · rw [length_keys_insert_same hv, h.survivor_entries]
  · dsimp only
    omega

end

end

def LiveEvent.key : LiveEvent → RunKey
  | .Spend outpoint _ _ => RunFile.outpoint_key outpoint
  | .Create outpoint _ _ _ => RunFile.outpoint_key outpoint

section

variable [PublicKeys]

def Stored (v : List UInt8) : Prop :=
  ∃ coin : Coin, money_range coin.out.value = true ∧ coin.out.script_pubkey.length ≤ MAX_AUDIT_SCRIPT_BYTES ∧
    Storable coin ∧ encode_coin coin = v

def StoredRows (survivors : Table RunKey (List UInt8)) : Prop := ∀ key v, survivors.lookup key = some v → Stored v

structure Batch.Kept (orig : RunKey → BeforeImage) (first : State) (touched : List RunKey) (b : Batch) : Prop where
  recorded : Recorded orig (image b.coins b.survivors) b.before
  touched : ∀ key, (b.before.lookup key).isSome = true → key ∈ touched
  live : LiveRows b.coins
  stored : StoredRows b.survivors
  counted : Counted b.coins b.survivors b.next
  same : first.SameTip b.next

variable {orig : RunKey → BeforeImage} {first : State} {touched : List RunKey} {b b' : Batch}
  {limits : SwiftLiveLimits}
  {height : ℕ} {key : RunKey}

omit [PublicKeys] in
theorem record_none {R : Type} {now : RunKey → R} {before : Table RunKey R} (h : before.lookup key = none) :
    record now before key = before.insert key (now key) := by
  rw [record, h]
  rfl

variable {live : Option LiveCoinMeta}

omit [PublicKeys] in
theorem enter_before_ok (hlive : live.map encode_row = b.coins.lookup key)
    (h : enter_before limits key live b = .ok b') :
    ∃ n, b' = { b with before := b.before.insert key (image b.coins b.survivors key), journal_value_bytes := n } := by
  obtain ⟨-, h⟩ := reject_bind_ok.mp h
  cases h
  rw [hlive]
  exact ⟨_, rfl⟩

section

variable (hb : b.Kept orig first touched)
include hb

theorem Batch.Kept.enter (hkey : key ∈ touched) (hlive : live.map encode_row = b.coins.lookup key)
    (hvacant : b.before.lookup key = none) (h : enter_before limits key live b = .ok b') :
    b'.Kept orig first touched ∧ (b'.before.lookup key).isSome = true ∧ b'.coins = b.coins ∧
      b'.survivors = b.survivors ∧ b'.next = b.next := by
  obtain ⟨n, rfl⟩ := enter_before_ok hlive h
  have hrecord := hb.recorded.record key
  rw [record_none hvacant] at hrecord
  refine ⟨⟨hrecord, ?_, hb.live, hb.stored, hb.counted, hb.same⟩, ?_, rfl, rfl, rfl⟩
  · intro j hj
    rw [lookup_insert_eq] at hj
    split at hj
    · next heq => exact heq ▸ hkey
    · exact hb.touched j hj
  · rw [lookup_insert_eq, if_pos rfl]
    rfl

theorem Batch.Kept.enter_vacant {read : Except SwiftLiveError (Option LiveCoinMeta)} (hkey : key ∈ touched)
    (hread : ∀ live, read = .ok live → live.map encode_row = b.coins.lookup key)
    (h : SwiftLive.enter_vacant limits key read b = .ok b') :
    b'.Kept orig first touched ∧ (b'.before.lookup key).isSome = true ∧ b'.coins = b.coins := by
  unfold SwiftLive.enter_vacant at h
  split at h
  · next hsome =>
    cases h
    exact ⟨hb, hsome, rfl⟩
  · next hnone =>
    obtain ⟨live, hlive, h⟩ := Mempool.except_bind_ok h
    obtain ⟨hk, hs, hc, -, -⟩ := hb.enter hkey (hread live hlive) (by simpa using hnone) h
    exact ⟨hk, hs, hc⟩

theorem Batch.Kept.remove_live (hheld : (b.before.lookup key).isSome = true) {v : List UInt8}
    (hv : b.coins.lookup key = some v) (h : SwiftLive.remove_live key b = .ok b') :
    b'.Kept orig first touched := by
  obtain ⟨-, h⟩ := reject_bind_ok.mp h
  obtain ⟨-, h⟩ := reject_bind_ok.mp h
  cases h
  refine ⟨?_, hb.touched, hb.live.erase key, hb.stored, (hb.counted.erase_live hb.live hv).2.2,
    hb.same.trans ⟨rfl, rfl, rfl, rfl, rfl⟩⟩
  rw [image_erase_live]
  exact hb.recorded.edit hheld (put_other _ key _)

theorem Batch.Kept.write_live (hheld : (b.before.lookup key).isSome = true) {current : Option LiveCoinMeta}
    (hcurrent : current.map encode_row = b.coins.lookup key) {row : LiveCoinMeta} (hrow : LiveRow (encode_row row))
    (h : SwiftLive.write_live limits key current row b = .ok b') :
    b'.Kept orig first touched := by
  obtain ⟨-, h⟩ := reject_bind_ok.mp h
  obtain ⟨-, h⟩ := reject_bind_ok.mp h
  cases h
  have hcounted : Counted (b.coins.insert key (encode_row row)) b.survivors (if current.isNone then
      { b.next with live_entries := b.next.live_entries + 1, live_bytes := b.next.live_bytes + (36 + ROW_LEN) }
      else b.next) := by
    cases current with
    | none => exact hb.counted.insert_live hcurrent.symm hrow.length
    | some old =>
      exact hb.counted.replace_live hcurrent.symm ((length_encode_row row).trans (length_encode_row old).symm)
  refine ⟨?_, hb.touched, hb.live.insert key hrow, hb.stored, hcounted, hb.same.trans ?_⟩
  · dsimp only
    rw [image_insert_live]
    exact hb.recorded.edit hheld (put_other _ key _)
  · cases current <;> exact ⟨rfl, rfl, rfl, rfl, rfl⟩

end

omit [PublicKeys] in
theorem event_action_ok {coins : Table RunKey (List UInt8)} {event : LiveEvent} {action : Option LiveCoinMeta}
    (hheight : height ≤ U32_MAX) (h : event_action height coins event = .ok (key, action)) :
    key = event.key ∧ ∀ row, action = some row → LiveRow (encode_row row) := by
  cases event with
  | Spend outpoint claim_height claim_coinbase =>
    obtain ⟨current, -, h⟩ := Mempool.except_bind_ok h
    cases current with
    | none => cases h
    | some current =>
      obtain ⟨-, h⟩ := reject_bind_ok.mp h
      cases h
      exact ⟨rfl, fun row hrow => nomatch hrow⟩
  | Create outpoint creation_height coinbase allow_live_overwrite =>
    obtain ⟨hsame, h⟩ := reject_bind_ok.mp h
    obtain ⟨current, -, h⟩ := Mempool.except_bind_ok h
    obtain ⟨-, h⟩ := reject_bind_ok.mp h
    cases h
    refine ⟨rfl, fun row hrow => ?_⟩
    cases hrow
    exact ⟨_, (not_not.mp hsame).symm ▸ hheight, rfl, rfl⟩

theorem Batch.Kept.event {event : LiveEvent} (hb : b.Kept orig first touched) (hheight : height ≤ U32_MAX)
    (hkey : event.key ∈ touched) (h : apply_event limits height b event = .ok b') : b'.Kept orig first touched := by
  obtain ⟨⟨key, action⟩, haction, h⟩ := Mempool.except_bind_ok h
  obtain ⟨hname, hrow⟩ := event_action_ok hheight haction
  obtain ⟨current, hget, h⟩ := Mempool.except_bind_ok h
  obtain ⟨held, hheld, h⟩ := Mempool.except_bind_ok h
  obtain ⟨current', hget', hcurrent⟩ := get_row_ok hb.live key
  rw [hget] at hget'
  cases hget'
  have hentered := hb.enter_vacant (hname ▸ hkey) (fun live hlive => by cases hlive; exact hcurrent) hheld
  obtain ⟨hk, hs, hc⟩ := hentered
  rw [← hc] at hcurrent
  cases action with
  | none =>
    obtain ⟨hsome, h⟩ := reject_bind_ok.mp h
    rw [Option.isNone_iff_eq_none] at hsome
    obtain ⟨row, rfl⟩ := Option.ne_none_iff_exists'.mp hsome
    exact hk.remove_live hs hcurrent.symm h
  | some row => exact hk.write_live hs hcurrent (hrow row rfl) h

def CodeFits (coin : Coin) : Prop := coin.height * 2 + coin.coinbase.toNat ≤ U32_MAX

theorem storable_of_fits {coin : Coin} (hcode : CodeFits coin)
    (hscript : coin.out.script_pubkey.length ≤ MAX_AUDIT_SCRIPT_BYTES) : Storable coin := by
  refine ⟨hcode, ?_⟩
  unfold MAX_AUDIT_SCRIPT_BYTES at hscript
  unfold U32_MAX
  rcases compress_script_id coin.out.script_pubkey with hid | hid <;> omega

variable {survivors : Table RunKey (List UInt8)}

theorem StoredRows.insert (h : StoredRows survivors) (key : RunKey) {v : List UInt8} (hv : Stored v) :
    StoredRows (survivors.insert key v) := by
  intro j w hw
  rw [lookup_insert_eq] at hw
  split at hw
  · cases hw
    exact hv
  · exact h j w hw

theorem StoredRows.erase (h : StoredRows survivors) (key : RunKey) :
    StoredRows (survivors.erase key) := by
  intro j w hw
  rw [lookup_erase_eq] at hw
  split at hw
  · cases hw
  · exact h j w hw

theorem Batch.Kept.put_survivor {coin : Coin} (hb : b.Kept orig first touched)
    (hheld : (b.before.lookup key).isSome = true) (hfits : CodeFits coin)
    (h : SwiftLive.put_survivor height key coin b = .ok b') : b'.Kept orig first touched := by
  obtain ⟨hcoin, h⟩ := reject_bind_ok.mp h
  obtain ⟨-, h⟩ := reject_bind_ok.mp h
  cases h
  rw [not_or, not_or, Bool.not_eq_false, not_lt] at hcoin
  obtain ⟨-, hmoney, hscript⟩ := hcoin
  have hstored : Stored (encode_coin coin) := ⟨coin, hmoney, hscript, storable_of_fits hfits hscript, rfl⟩
  have hrecorded : Recorded orig (image b.coins (b.survivors.insert key (encode_coin coin))) b.before := by
    rw [image_insert_survivor]
    exact hb.recorded.edit hheld (put_other _ key _)
  refine ⟨hrecorded, hb.touched, hb.live, hb.stored.insert key hstored, ?_, hb.same.trans ⟨rfl, rfl, rfl, rfl, rfl⟩⟩
  cases hv : b.survivors.lookup key with
  | none => exact hb.counted.insert_survivor hv _
  | some old => exact (hb.counted.replace_survivor hv _).2

theorem Batch.Kept.drop_survivor (hb : b.Kept orig first touched) (hheld : (b.before.lookup key).isSome = true)
    (h : SwiftLive.drop_survivor key b = .ok b') : b'.Kept orig first touched := by
  unfold SwiftLive.drop_survivor at h
  split at h
  · cases h
    exact hb
  · next old hv =>
    obtain ⟨-, h⟩ := reject_bind_ok.mp h
    obtain ⟨-, h⟩ := reject_bind_ok.mp h
    cases h
    have hrecorded : Recorded orig (image b.coins (b.survivors.erase key)) b.before := by
      rw [image_erase_survivor]
      exact hb.recorded.edit hheld (put_other _ key _)
    exact ⟨hrecorded, hb.touched, hb.live, hb.stored.erase key, (hb.counted.erase_survivor hv).2.2,
      hb.same.trans ⟨rfl, rfl, rfl, rfl, rfl⟩⟩

theorem Batch.Kept.survivor {update : OutPoint × Option Coin} (hb : b.Kept orig first touched)
    (hkey : RunFile.outpoint_key update.1 ∈ touched) (hfits : ∀ coin, update.2 = some coin → CodeFits coin)
    (h : apply_survivor limits height b update = .ok b') : b'.Kept orig first touched := by
  obtain ⟨held, hheld, h⟩ := Mempool.except_bind_ok h
  obtain ⟨replaced, hreplaced, h⟩ := Mempool.except_bind_ok h
  obtain ⟨-, h⟩ := reject_bind_ok.mp h
  cases h
  obtain ⟨hk, hs, -⟩ := hb.enter_vacant hkey (fun live hlive => by
    obtain ⟨current, hget, hcurrent⟩ := get_row_ok hb.live (RunFile.outpoint_key update.1)
    rw [hlive] at hget
    cases hget
    exact hcurrent) hheld
  cases hu : update.2 with
  | some coin =>
    rw [hu] at hreplaced
    exact hk.put_survivor hs (hfits coin hu) hreplaced
  | none =>
    rw [hu] at hreplaced
    exact hk.drop_survivor hs hreplaced

end

structure Reverting.Kept (first : State) (r : Reverting) : Prop where
  live : LiveRows r.coins
  counted : Counted r.coins r.survivors r.next
  same : first.SameTip r.next

def LiveImage (old : Option (List UInt8)) : Prop := ∀ v, old = some v → LiveRow v

section

variable {first : State} {r : Reverting} {old : Option (List UInt8)}

theorem Reverting.Kept.live_reverts (hr : r.Kept first) (key : RunKey) (hold : LiveImage old) :
    ∃ r', revert_live key old r = .ok r' ∧ r'.Kept first ∧ r'.survivors = r.survivors ∧
      image r'.coins r'.survivors = put (image r.coins r.survivors) key ⟨old, r.survivors.lookup key⟩ := by
  obtain ⟨current, hget, hcurrent⟩ := get_row_ok hr.live key
  unfold revert_live
  rw [hget]
  cases current with
  | none =>
    cases old with
    | none =>
      refine ⟨r, rfl, hr, rfl, ?_⟩
      funext j
      rw [put]
      split
      · next hj =>
        rw [hj]
        unfold image
        rw [← hcurrent, Option.map_none]
      · rfl
    | some v =>
      obtain ⟨row, hrow, -⟩ := (hold v rfl).decode
      have hdecoded : (decode_row v).isNone ≠ true := by rw [hrow]; exact Bool.false_ne_true
      refine ⟨_, reject_bind_neg _ _ hdecoded, ⟨hr.live.insert key (hold v rfl),
        hr.counted.insert_live hcurrent.symm (hold v rfl).length, hr.same.trans ⟨rfl, rfl, rfl, rfl, rfl⟩⟩, rfl, ?_⟩
      exact image_insert_live _ _ _ _
  | some row =>
    rw [Option.map_some] at hcurrent
    cases old with
    | none =>
      obtain ⟨hentries, hbytes, hcounted⟩ := hr.counted.erase_live hr.live hcurrent.symm
      refine ⟨_, (reject_bind_neg _ _ (not_lt.mpr hentries)).trans (reject_bind_neg _ _ (not_lt.mpr hbytes)),
        ⟨hr.live.erase key, hcounted, hr.same.trans ⟨rfl, rfl, rfl, rfl, rfl⟩⟩, rfl, ?_⟩
      exact image_erase_live _ _ _
    | some v =>
      obtain ⟨row', hrow, -⟩ := (hold v rfl).decode
      have hdecoded : (decode_row v).isNone ≠ true := by rw [hrow]; exact Bool.false_ne_true
      refine ⟨_, reject_bind_neg _ _ hdecoded, ⟨hr.live.insert key (hold v rfl),
        hr.counted.replace_live hcurrent.symm ((hold v rfl).length.trans (length_encode_row row).symm), hr.same⟩,
          rfl, ?_⟩
      exact image_insert_live _ _ _ _

theorem Reverting.Kept.survivor_reverts (hr : r.Kept first) (key : RunKey) (old : Option (List UInt8)) :
    ∃ r', revert_survivor key old r = .ok r' ∧ r'.Kept first ∧
      image r'.coins r'.survivors = put (image r.coins r.survivors) key ⟨r.coins.lookup key, old⟩ := by
  unfold revert_survivor
  cases hv : r.survivors.lookup key with
  | none =>
    cases old with
    | none =>
      refine ⟨r, rfl, hr, ?_⟩
      funext j
      rw [put]
      split
      · next hj =>
        rw [hj]
        unfold image
        rw [hv]
      · rfl
    | some v =>
      exact ⟨_, rfl, ⟨hr.live, hr.counted.insert_survivor hv v, hr.same.trans ⟨rfl, rfl, rfl, rfl, rfl⟩⟩,
        image_insert_survivor _ _ _ _⟩
  | some row =>
    cases old with
    | none =>
      obtain ⟨hentries, hbytes, hcounted⟩ := hr.counted.erase_survivor hv
      exact ⟨_, (reject_bind_neg _ _ (not_lt.mpr hentries)).trans (reject_bind_neg _ _ (not_lt.mpr hbytes)),
        ⟨hr.live, hcounted, hr.same.trans ⟨rfl, rfl, rfl, rfl, rfl⟩⟩, image_erase_survivor _ _ _⟩
    | some v =>
      obtain ⟨hbytes, hcounted⟩ := hr.counted.replace_survivor hv v
      exact ⟨_, reject_bind_neg _ _ (not_lt.mpr hbytes),
        ⟨hr.live, hcounted, hr.same.trans ⟨rfl, rfl, rfl, rfl, rfl⟩⟩, image_insert_survivor _ _ _ _⟩

theorem Reverting.Kept.row_reverts {row : RunKey × BeforeImage} (hr : r.Kept first) (hold : LiveImage row.2.live) :
    ∃ r', revert_row r row = .ok r' ∧ r'.Kept first ∧
      image r'.coins r'.survivors = put (image r.coins r.survivors) row.1 row.2 := by
  obtain ⟨middle, hmiddle, hkept, -, himage⟩ := hr.live_reverts row.1 hold
  obtain ⟨r', hr', hkept', himage'⟩ := hkept.survivor_reverts row.1 row.2.survivor
  refine ⟨r', ?_, hkept', ?_⟩
  · unfold revert_row
    rw [hmiddle]
    exact hr'
  · have hlive : middle.coins.lookup row.1 = row.2.live := by
      have h := congrFun himage row.1
      rw [put, if_pos rfl] at h
      exact congrArg BeforeImage.live h
    rw [himage', himage, hlive]
    funext j
    unfold put
    split <;> rfl

theorem Reverting.Kept.reverts {rows : List (RunKey × BeforeImage)} (hr : r.Kept first)
    (hold : ∀ row ∈ rows, LiveImage row.2.live) :
    ∃ r', rows.foldlM revert_row r = .ok r' ∧ r'.Kept first ∧
      image r'.coins r'.survivors = restore (image r.coins r.survivors) rows := by
  induction rows generalizing r with
  | nil => exact ⟨r, rfl, hr, rfl⟩
  | cons row rows ih =>
    obtain ⟨middle, hmiddle, hkept, himage⟩ := hr.row_reverts (hold row List.mem_cons_self)
    obtain ⟨r', hr', hkept', himage'⟩ := ih hkept fun row hrow => hold row (List.mem_cons_of_mem _ hrow)
    refine ⟨r', ?_, hkept', ?_⟩
    · rw [List.foldlM_cons, hmiddle]
      exact hr'
    · rw [himage', himage, restore]

end

end SwiftLive

end AvilaNode
