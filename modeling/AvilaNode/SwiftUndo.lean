import AvilaNode.SwiftSteps

/-! A committed block, its journal, and the journal read back: what one transition keeps. -/

namespace AvilaNode

open ByteStrings CoinCodec Layers BeforeImages

namespace SwiftLive

theorem length_continuation (fuel n : ℕ) : (continuation fuel n).length ≤ fuel := by
  induction fuel generalizing n with
  | zero => rfl
  | succ fuel ih =>
    rw [continuation]
    split
    · exact Nat.zero_le _
    · have h := ih (n / 128 - 1)
      rw [List.length_append]
      exact Nat.succ_le_succ h

theorem length_write_varint (n : ℕ) : (write_varint n).length ≤ 10 := by
  have h := length_continuation 9 n
  rw [write_varint, List.length_append]
  exact Nat.succ_le_succ h

section

variable [PublicKeys]

theorem length_compress_script (script : Script) : (compress_script script).2.length ≤ max 32 script.length := by
  have hof := template_of script
  unfold compress_script
  split
  · next hash ht =>
    rw [ht] at hof
    exact le_max_of_le_left (by rw [hof.2]; decide)
  · next hash ht =>
    rw [ht] at hof
    exact le_max_of_le_left (by rw [hof.2]; decide)
  · split_ifs
    · exact le_max_of_le_left (by simp)
    · exact le_max_of_le_left (by simp)
    · exact le_max_right _ _
  · exact le_max_right _ _

theorem length_encode_coin (coin : Coin) : (encode_coin coin).length ≤ 30 + max 32 coin.out.script_pubkey.length := by
  have hcode := length_write_varint (coin.height * 2 + coin.coinbase.toNat)
  have hamount := length_write_varint (compress_amount coin.out.value.toNat)
  have hsize := length_write_varint (compress_script coin.out.script_pubkey).1
  have hscript := length_compress_script coin.out.script_pubkey
  rw [encode_coin]
  simp only [List.length_append]
  omega

theorem Stored.readable {v : List UInt8} (h : Stored v) : v.length < U32_MAX ∧ survivor_reads v = true := by
  obtain ⟨coin, hmoney, hscript, hstorable, rfl⟩ := h
  have hlen := length_encode_coin coin
  have hread := decode_encode_coin hmoney hstorable []
  rw [List.append_nil] at hread
  constructor
  · unfold MAX_AUDIT_SCRIPT_BYTES at hscript
    unfold U32_MAX
    omega
  · rw [survivor_reads, hread]
    exact hmoney

end

section

variable {undo undo' : Table ℕ (List UInt8)} {next next' : State} {height : ℕ}

theorem insert_new_ok {encoded : Option (List UInt8)} (h : insert_new undo height encoded = .ok undo') :
    (encoded.isSome = true → undo.lookup height = none) ∧
      (∀ j, undo'.lookup j = if j = height then encoded.or (undo.lookup height) else undo.lookup j) ∧
      total record_bytes undo' = total record_bytes undo + (encoded.map record_bytes).getD 0 := by
  cases encoded with
  | none =>
    cases h
    refine ⟨fun hsome => (by cases hsome), fun j => ?_, rfl⟩
    split
    · next hj => rw [hj, Option.none_or]
    · rfl
  | some v =>
    obtain ⟨hfree, h⟩ := reject_bind_ok.mp h
    cases h
    have hnone : undo.lookup height = none := by simpa using hfree
    refine ⟨fun _ => hnone, fun j => lookup_insert_eq undo height j v, ?_⟩
    rw [total_insert_fresh hnone, Option.map_some, Option.getD_some, Nat.add_comm]

theorem prune_block_undo_ok {binding : SwiftLiveBinding}
    (h : prune_block_undo binding height undo next = .ok (undo', next')) :
    (∃ n, next' = { next with undo_bytes := n } ∧
      n + total record_bytes undo = next.undo_bytes + total record_bytes undo') ∧
      ∀ j, undo'.lookup j = if binding.start_height < height - DEFAULT_REORG_DEPTH ∧ j = height - DEFAULT_REORG_DEPTH
        then none else undo.lookup j := by
  unfold prune_block_undo at h
  dsimp only at h
  split at h
  · next hstart =>
    split at h
    · next hnone =>
      cases h
      refine ⟨⟨_, rfl, rfl⟩, fun j => ?_⟩
      split
      · next hj => rw [hj.2, hnone]
      · rfl
    · next old hold =>
      obtain ⟨hroom, h⟩ := reject_bind_ok.mp h
      cases h
      refine ⟨⟨_, rfl, ?_⟩, fun j => ?_⟩
      · rw [total_erase hold, record_bytes]
        omega
      · rw [lookup_erase_eq]
        simp only [hstart, true_and]
  · next hstart =>
    cases h
    refine ⟨⟨_, rfl, rfl⟩, fun j => ?_⟩
    rw [if_neg fun hj => hstart hj.1]

theorem expire_journals_ok {rounds : ℕ} (h : expire_journals rounds undo next = .ok (undo', next')) :
    (∃ n, next' = { next with undo_bytes := n, undo_floor := next.undo_floor + rounds } ∧
      n + total record_bytes undo = next.undo_bytes + total record_bytes undo') ∧
      ∀ j, undo'.lookup j = if next.undo_floor < j ∧ j ≤ next.undo_floor + rounds then none else undo.lookup j := by
  induction rounds generalizing undo next with
  | zero =>
    cases h
    refine ⟨⟨_, rfl, rfl⟩, fun j => ?_⟩
    rw [if_neg (by omega)]
  | succ rounds ih =>
    unfold expire_journals at h
    dsimp only at h
    split at h
    · cases h
    · next old hold =>
      obtain ⟨hroom, h⟩ := reject_bind_ok.mp h
      obtain ⟨⟨n, rfl, htotal⟩, hlookup⟩ := ih h
      refine ⟨⟨n, ?_, ?_⟩, fun j => ?_⟩
      · dsimp only
        rw [Nat.add_assoc, Nat.add_comm 1]
      · dsimp only at htotal
        rw [total_erase hold, record_bytes]
        omega
      · rw [hlookup, lookup_erase_eq]
        dsimp only
        by_cases hj : j = next.undo_floor + 1
        · rw [if_neg (by omega), if_pos hj, if_pos (by omega)]
        · rw [if_neg hj]
          split
          · rw [if_pos (by omega)]
          · rw [if_neg (by omega)]

end

/-- What a rewind restores: the two rows of each key, the snapshots, the transaction counts and the tip. -/
structure View where
  rows : RunKey → BeforeImage
  audit : Option (List UInt8)
  stump : Option (List UInt8)
  tx_meta : ℕ → Option (List UInt8)
  height : ℕ
  hash : BlockHash

def SwiftLiveIndex.view (self : SwiftLiveIndex) : View where
  rows := image self.db.coins self.db.survivors
  audit := self.db.audit
  stump := self.db.stump
  tx_meta := self.db.tx_meta.lookup
  height := self.state.height
  hash := self.state.hash

section

variable [PublicKeys] (sha256 : List UInt8 → Hash256)

structure View.Sound (v : View) : Prop where
  live : ∀ key, LiveImage (v.rows key).live
  stored : ∀ key row, (v.rows key).survivor = some row → Stored row
  audit : ∀ snapshot, v.audit = some snapshot → snapshot.length = 321
  stump : ∀ snapshot, v.stump = some snapshot → snapshot ≠ [] ∧ snapshot.length ≤ 4096
  tx_meta : ∀ height, v.height < height → v.tx_meta height = none

def Restores (journal : List UInt8) (after before : View) : Prop :=
  ∃ rows, decode_journal sha256 journal = .ok (before.hash, after.hash, before.audit, before.stump, rows) ∧
    (∀ row ∈ rows, LiveImage row.2.live) ∧ restore after.rows rows = before.rows ∧
    (∀ height, before.tx_meta height = if height = after.height then none else after.tx_meta height)

def Application.touched (a : Application) : List RunKey :=
  a.events.map LiveEvent.key ++ a.survivor_updates.map fun update => RunFile.outpoint_key update.1

/-- What the journal's reader asks of a block: as many keys as it may have events, a stump that is not empty, and
survivors whose record code fits 32 bits. -/
structure Application.Fits (a : Application) : Prop where
  touched : a.touched.dedup.length ≤ MAX_BLOCK_EVENTS
  stump : a.stump_snapshot ≠ some []
  code : ∀ update ∈ a.survivor_updates, ∀ coin, update.2 = some coin → CodeFits coin

omit [PublicKeys] in
theorem length_keys_le {V : Type} {t : Table RunKey V} {keys : List RunKey}
    (h : ∀ key, (t.lookup key).isSome = true → key ∈ keys) : t.keys.length ≤ keys.dedup.length := by
  have hsub : t.keys ⊆ keys.dedup := fun key hkey => List.mem_dedup.mpr (h key (mem_keys_iff.mp hkey))
  exact (List.subperm_of_subset t.nodupKeys hsub).length_le

variable {sha256} {self : SwiftLiveIndex} {a : Application} {row : Option (List UInt8)} {db : Database} {next : State}

def SwiftLiveIndex.after (self : SwiftLiveIndex) (db : Database) (next : State) : SwiftLiveIndex :=
  { self with db, state := next }

structure Applied (sha256 : List UInt8 → Hash256) (index : SwiftLiveIndex) (a : Application)
    (row : Option (List UInt8))
    (journal : List UInt8) (db : Database) (next : State) : Prop where
  height : a.height = index.state.height + 1
  previous : a.previous_hash = index.state.hash
  target : a.height ≤ index.binding.target_height
  restores : Restores sha256 journal (index.after db next).view index.view
  view : (index.after db next).view.Sound
  metadata : db.metadata = (index.binding, index.limits, next)
  counted : Counted db.coins db.survivors next
  tip : next.height = a.height ∧ next.hash = a.block_hash
  floor : next.undo_floor =
    index.state.undo_floor + (a.height - index.state.undo_floor - index.limits.max_reorg_depth)
  undo : ∀ j, db.undo.lookup j = if index.state.undo_floor < j ∧ j ≤ next.undo_floor then none
    else if j = a.height then some journal else index.db.undo.lookup j
  block_undo : ∀ j, db.block_undo.lookup j =
    if index.binding.start_height < a.height - DEFAULT_REORG_DEPTH ∧ j = a.height - DEFAULT_REORG_DEPTH then none
    else if j = a.height then row.or (index.db.block_undo.lookup a.height) else index.db.block_undo.lookup j
  undo_bytes : next.undo_bytes + (total record_bytes index.db.undo + total record_bytes index.db.block_undo) =
    index.state.undo_bytes + (total record_bytes db.undo + total record_bytes db.block_undo)

theorem kept_start (hview : self.view.Sound) (hcounted : Counted self.db.coins self.db.survivors self.state) (n : ℕ)
    (touched : List RunKey) : (Batch.mk self.db.coins self.db.survivors ∅ n self.state).Kept
      (image self.db.coins self.db.survivors) self.state touched where
  recorded := recorded_start _
  touched := fun key hkey => by cases hkey
  live := fun key => hview.live key
  stored := fun key => hview.stored key
  counted := hcounted
  same := .refl _

theorem kept_block {b b' : Batch} {n : ℕ} (hview : self.view.Sound)
    (hcounted : Counted self.db.coins self.db.survivors self.state) (hheight : a.height ≤ U32_MAX) (hfits : a.Fits)
    (hevents : a.events.foldlM (apply_event self.limits a.height)
      ⟨self.db.coins, self.db.survivors, ∅, n, self.state⟩ = .ok b)
    (hupdates : a.survivor_updates.foldlM (apply_survivor self.limits a.height) b = .ok b') :
    b'.Kept (image self.db.coins self.db.survivors) self.state a.touched := by
  have hfirst : b.Kept (image self.db.coins self.db.survivors) self.state a.touched := by
    refine foldlM_invariant (fun event hevent c c' hc h => ?_) (kept_start hview hcounted n a.touched) hevents
    exact hc.event hheight (List.mem_append_left _ (List.mem_map_of_mem hevent)) h
  refine foldlM_invariant (fun update hupdate c c' hc h => ?_) hfirst hupdates
  exact hc.survivor (List.mem_append_right _ (List.mem_map_of_mem hupdate)) (hfits.code update hupdate) h

variable {old new : Option (List UInt8)} {journal : List UInt8}

theorem restores_block {b : Batch} {after : View} (hview : self.view.Sound)
    (hkept : b.Kept (image self.db.coins self.db.survivors) self.state a.touched) (hfits : a.Fits)
    (hjournal : encode_journal sha256 self.state.hash a.block_hash b.before self.db.audit self.db.stump = .ok journal)
    (hrows : after.rows = image b.coins b.survivors) (hhash : after.hash = a.block_hash)
    (htx : ∀ height, self.db.tx_meta.lookup height = if height = after.height then none else after.tx_meta height) :
    Restores sha256 journal after self.view := by
  have hfew : b.before.keys.length ≤ MAX_BLOCK_EVENTS := (length_keys_le hkept.touched).trans hfits.touched
  have horig : ∀ key old, b.before.lookup key = some old → old = image self.db.coins self.db.survivors key :=
    fun key old hold => hkept.recorded.orig_of_lookup hold
  have hreadable : ∀ key old, b.before.lookup key = some old → old.Readable := by
    intro key old hold
    rw [horig key old hold]
    refine ⟨fun v hv => ?_, fun v hv => (hview.stored key v hv).readable⟩
    obtain ⟨live, hlive, -⟩ := (hview.live key v hv).decode
    rw [hlive]
    rfl
  have haudit : self.db.audit ≠ some [] := fun h => absurd (hview.audit [] h) (by decide)
  have hstump : self.db.stump ≠ some [] := fun h => (hview.stump [] h).1 rfl
  refine ⟨in_order b.before, ?_, ?_, ?_, htx⟩
  · rw [hhash]
    exact decode_encode_journal hjournal hfew haudit hstump hreadable
  · rintro ⟨key, old⟩ hmem
    rw [horig key old (mem_in_order.mp hmem)]
    exact hview.live key
  · rw [hrows]
    exact hkept.recorded.restore (in_order_nodup b.before) fun key old => mem_in_order

omit [PublicKeys] in
theorem audit_after (hold : ∀ snapshot, old = some snapshot → snapshot.length = 321)
    (hnew : ¬ (new.any fun snapshot => decide (snapshot.length ≠ 321)) = true) (snapshot : List UInt8)
    (h : new.or old = some snapshot) : snapshot.length = 321 := by
  cases new with
  | none => exact hold snapshot h
  | some v =>
    cases h
    simpa using hnew

omit [PublicKeys] in
theorem stump_after (hold : ∀ snapshot, old = some snapshot → snapshot ≠ [] ∧ snapshot.length ≤ 4096)
    (hempty : new ≠ some []) (hnew : ¬ (new.any fun snapshot => decide (4096 < snapshot.length)) = true)
    (snapshot : List UInt8) (h : new.or old = some snapshot) : snapshot ≠ [] ∧ snapshot.length ≤ 4096 := by
  cases new with
  | none => exact hold snapshot h
  | some v =>
    cases h
    refine ⟨fun hv => hempty (by rw [hv]), ?_⟩
    simpa using hnew

structure Rewound (index : SwiftLiveIndex) (before : View) (db : Database) (next : State) : Prop where
  view : (index.after db next).view = before
  metadata : db.metadata = (index.binding, index.limits, next)
  counted : Counted db.coins db.survivors next
  floor : next.undo_floor = index.state.undo_floor
  undo : ∀ j, db.undo.lookup j = if j = index.state.height then none else index.db.undo.lookup j
  block_undo : ∀ j, db.block_undo.lookup j = if j = index.state.height then none else index.db.block_undo.lookup j
  undo_bytes : next.undo_bytes + (total record_bytes index.db.undo + total record_bytes index.db.block_undo) =
    index.state.undo_bytes + (total record_bytes db.undo + total record_bytes db.block_undo)

omit [PublicKeys] in
theorem total_erase_any (t : Table ℕ (List UInt8)) (k : ℕ) :
    total record_bytes t = ((t.lookup k).map record_bytes).getD 0 + total record_bytes (t.erase k) := by
  cases h : t.lookup k with
  | none => rw [total_erase_none h, Option.map_none, Option.getD_none, Nat.zero_add]
  | some v => exact total_erase h

theorem rewinds {before : View} (hlive : LiveRows self.db.coins)
    (hcounted : Counted self.db.coins self.db.survivors self.state)
    (hbytes : self.state.undo_bytes = total record_bytes self.db.undo + total record_bytes self.db.block_undo)
    (hfloor : self.state.undo_floor < self.state.height)
    (hjournal : self.db.undo.lookup self.state.height = some journal)
    (hrestores : Restores sha256 journal self.view before) (hheight : before.height + 1 = self.state.height) :
    ∃ db next, SwiftLiveIndex.rewind_transaction sha256 self self.state.hash = .ok (before.hash, db, next) ∧
      Rewound self before db next := by
  obtain ⟨rows, hdecode, hrows, hrestore, htx⟩ := hrestores
  have hjournal_bytes := total_erase (f := record_bytes) hjournal
  have hblock_bytes := total_erase_any self.db.block_undo self.state.height
  rw [record_bytes] at hjournal_bytes
  have hstart : Reverting.Kept { self.state with undo_bytes := self.state.undo_bytes - (4 + journal.length) }
      ⟨self.db.coins, self.db.survivors,
        { self.state with undo_bytes := self.state.undo_bytes - (4 + journal.length) }⟩ :=
    ⟨hlive, ⟨hcounted.live_entries, hcounted.live_bytes, hcounted.survivor_entries, hcounted.survivor_bytes⟩, .refl _⟩
  obtain ⟨r, hr, hkept, himage⟩ := hstart.reverts hrows
  have hsame := hkept.same
  have hundo_bytes := hsame.undo_bytes
  dsimp only at hundo_bytes
  obtain ⟨removed, hremoved⟩ : ∃ removed,
    ((self.db.block_undo.lookup self.state.height).map record_bytes).getD 0 = removed :=
    ⟨_, rfl⟩
  rw [hremoved] at hblock_bytes
  obtain ⟨next, hnext⟩ : ∃ next : State, { r.next with
    undo_bytes := r.next.undo_bytes - removed, height := r.next.height - 1, hash := before.hash, complete :=
      false } = next :=
    ⟨_, rfl⟩
  refine ⟨⟨r.coins, (self.binding, self.limits, next), self.db.undo.erase self.state.height, before.audit,
    before.stump,
    self.db.block_undo.erase self.state.height, self.db.tx_meta.erase self.state.height, r.survivors⟩, next, ?_, ?_⟩
  · unfold SwiftLiveIndex.rewind_transaction
    rw [reject_bind_neg _ _ (by rw [not_or]; exact ⟨not_le.mpr hfloor, not_not.mpr rfl⟩), hjournal]
    change (decode_journal sha256 journal >>= _) = _
    rw [hdecode]
    refine (reject_bind_neg _ _ (not_not.mpr rfl)).trans ?_
    refine (reject_bind_neg _ _ (by omega)).trans ?_
    change (rows.foldlM revert_row _ >>= _) = _
    rw [hr, ← hnext, ← hremoved]
    exact reject_bind_neg _ _ (by change ¬ _ < ((self.db.block_undo.lookup _).map record_bytes).getD 0; omega)
  · have hview : image r.coins r.survivors = before.rows := himage.trans hrestore
    have htip : next.height = before.height := by
      rw [← hnext]
      rw [hsame.height]
      dsimp only
      omega
    refine ⟨?_, rfl, ?_, ?_, fun j => lookup_erase_eq _ _ j, fun j => lookup_erase_eq _ _ j, ?_⟩
    · obtain ⟨rows', audit, stump, tx_meta, height, hash⟩ := before
      unfold SwiftLiveIndex.view SwiftLiveIndex.after
      rw [hview, htip]
      have hhash : next.hash = hash := by rw [← hnext]
      have hmeta : (self.db.tx_meta.erase self.state.height).lookup = tx_meta := by
        funext j
        rw [lookup_erase_eq]
        exact (htx j).symm
      rw [hhash, hmeta]
    · rw [← hnext]
      exact ⟨hkept.counted.live_entries, hkept.counted.live_bytes, hkept.counted.survivor_entries,
        hkept.counted.survivor_bytes⟩
    · rw [← hnext]
      exact hsame.undo_floor
    · rw [← hnext]
      dsimp only
      omega

variable [Platform]

theorem applied (hview : self.view.Sound) (hcounted : Counted self.db.coins self.db.survivors self.state)
    (hfits : a.Fits) (hrow : encode_retained sha256 a.previous_hash a.full_block = .ok row)
    (h : SwiftLiveIndex.checked_application sha256 self a = .ok ((), db, next)) :
    ∃ journal, Applied sha256 self a row journal db next := by
  unfold SwiftLiveIndex.checked_application at h
  obtain ⟨hu32, h⟩ := reject_bind_ok.mp h
  obtain ⟨htip, h⟩ := reject_bind_ok.mp h
  obtain ⟨-, h⟩ := reject_bind_ok.mp h
  obtain ⟨-, h⟩ := reject_bind_ok.mp h
  obtain ⟨-, h⟩ := reject_bind_ok.mp h
  obtain ⟨row', hrow', h⟩ := Mempool.except_bind_ok h
  rw [hrow] at hrow'
  cases hrow'
  obtain ⟨-, h⟩ := reject_bind_ok.mp h
  unfold SwiftLiveIndex.block_transaction at h
  obtain ⟨hbinding, h⟩ := reject_bind_ok.mp h
  obtain ⟨-, h⟩ := reject_bind_ok.mp h
  obtain ⟨-, h⟩ := reject_bind_ok.mp h
  obtain ⟨b₀, hevents, h⟩ := Mempool.except_bind_ok h
  obtain ⟨b, hupdates, h⟩ := Mempool.except_bind_ok h
  obtain ⟨haudit, h⟩ := reject_bind_ok.mp h
  obtain ⟨journal, hjournal, h⟩ := Mempool.except_bind_ok h
  obtain ⟨undo, hundo, h⟩ := Mempool.except_bind_ok h
  obtain ⟨tx_meta, htx, h⟩ := Mempool.except_bind_ok h
  obtain ⟨block_undo, hblock, h⟩ := Mempool.except_bind_ok h
  obtain ⟨⟨block_undo', next₁⟩, hprune, h⟩ := Mempool.except_bind_ok h
  obtain ⟨⟨undo', next₂⟩, hexpire, h⟩ := Mempool.except_bind_ok h
  obtain ⟨-, h⟩ := reject_bind_ok.mp h
  cases h
  rw [not_or, not_or, not_not, not_not, not_lt] at htip
  obtain ⟨hheight, hprevious, htarget⟩ := htip
  have hkept := kept_block hview hcounted (by omega) hfits hevents hupdates
  obtain ⟨⟨n₁, rfl, hn₁⟩, hblock'⟩ := prune_block_undo_ok hprune
  obtain ⟨⟨n₂, rfl, hn₂⟩, hundo'⟩ := expire_journals_ok hexpire
  obtain ⟨hundo_free, hundo, hundo_total⟩ := insert_new_ok hundo
  obtain ⟨htx_free, htx, -⟩ := insert_new_ok htx
  obtain ⟨-, hblock, hblock_total⟩ := insert_new_ok hblock
  have hsame := hkept.same
  dsimp only at hn₁ hn₂ hundo' hundo_total
  refine ⟨journal, hheight, hprevious, htarget, ?_, ?_, rfl, ?_, ⟨rfl, rfl⟩, ?_, ?_, ?_, ?_⟩
  · refine restores_block hview hkept hfits hjournal rfl rfl fun height => ?_
    change _ = if height = a.height then none else tx_meta.lookup height
    split
    · next heq => exact hview.tx_meta height (by rw [heq, hheight]; exact Nat.lt_succ_self _)
    · next hne => rw [htx, if_neg hne]
  · constructor
    · exact fun key v hv => hkept.live key v hv
    · exact fun key v hv => hkept.stored key v hv
    · exact audit_after hview.audit haudit
    · exact stump_after hview.stump hfits.stump (fun h => hbinding (Or.inl h))
    · intro height hlt
      change a.height < height at hlt
      change tx_meta.lookup height = none
      rw [htx, if_neg (by omega)]
      exact hview.tx_meta height (by change self.state.height < height; omega)
  · exact ⟨hkept.counted.live_entries, hkept.counted.live_bytes, hkept.counted.survivor_entries,
      hkept.counted.survivor_bytes⟩
  · dsimp only
    rw [hsame.undo_floor]
  · intro j
    rw [hundo', hundo, hsame.undo_floor, Option.some_or]
  · intro j
    rw [hblock', hblock]
  · dsimp only
    rw [hsame.undo_bytes] at hn₁
    have hbytes : (row.map fun encoded => 4 + encoded.length).getD 0 = (row.map record_bytes).getD 0 := rfl
    rw [hbytes] at hn₁
    rw [Option.map_some, Option.getD_some, record_bytes] at hundo_total
    omega

end

end SwiftLive

end AvilaNode
