import AvilaNode.CompactBlocks

/-! A block sent as short ids is rebuilt as it was. -/

namespace AvilaNode.Compact

open ByteReader ByteStrings Decoder FrameCodec Wire

theorem take_le (k width n : ℕ) (h : k ≤ width) : (le width n).take k = le k n := by
  induction k generalizing width n with
  | zero => rfl
  | succ k ih =>
    obtain ⟨width, rfl⟩ : ∃ w, width = w + 1 := ⟨width - 1, by omega⟩
    rw [le_succ, le_succ, List.take_succ_cons, ih width (n / 256) (by omega)]

theorem value_append_zeros (bytes : List UInt8) (count : ℕ) :
    value (bytes ++ List.replicate count 0) = value bytes := by
  induction bytes with
  | nil =>
    induction count with
    | zero => rfl
    | succ count ih => simpa [List.replicate_succ] using ih
  | cons byte bytes ih => rw [List.cons_append, value_cons, value_cons, ih]

theorem key48_shortid_bytes (key : BitVec 64 × BitVec 64) (wtxid : Wtxid) :
    key48 (shortid_bytes (shortid key wtxid)) = shortid key wtxid := by
  have hlt : (shortid key wtxid).toNat < 256 ^ 6 := by
    rw [shortid, BitVec.toNat_and]
    exact Nat.and_le_right.trans_lt (by decide)
  have hbytes : (shortid_bytes (shortid key wtxid)).toList = le 6 (shortid key wtxid).toNat := by
    rw [shortid_bytes, take_le 6 8 _ (by decide)]
    simp [to_array, Vector.toList]
  rw [key48, hbytes, show [(0 : UInt8), 0] = List.replicate 2 0 from rfl, value_append_zeros, value_le hlt,
    BitVec.ofNat_toNat, BitVec.setWidth_eq]

variable {pool : Mempool}

section Pool

variable [Platform]

theorem mem_claimable {key : BitVec 64 × BitVec 64} {id : BitVec 64} {tx : Transaction} :
    tx ∈ claimable key pool id ↔ tx ∈ pool.iter_txs ∧ shortid key (Platform.wtxid tx) = id := by
  have hfold : ∀ (txs : List Transaction) (queues : BitVec 64 → List Transaction),
      tx ∈ txs.foldl (fun queues tx => Function.update queues (shortid key (Platform.wtxid tx))
        (tx :: queues (shortid key (Platform.wtxid tx)))) queues id ↔
      tx ∈ queues id ∨ tx ∈ txs ∧ shortid key (Platform.wtxid tx) = id := by
    intro txs
    induction txs with
    | nil => simp
    | cons t txs ih =>
      intro queues
      rw [List.foldl_cons, ih]
      by_cases h : id = shortid key (Platform.wtxid t)
      · subst h
        simp only [Function.update_self, List.mem_cons]
        grind
      · rw [Function.update_of_ne h]
        grind
  simpa [claimable] using hfold pool.iter_txs fun _ => []

end Pool

def Agree (slots : Slots) (txs : List Transaction) : Prop :=
  List.Forall₂ (fun slot tx => ∀ t, slot = some t → t = tx) slots txs

theorem resolve_empty (i : ℕ) (ids : List (Vector UInt8 6)) :
    resolve i (List.replicate ids.length none) ids (fun _ => []) =
      .ok (List.replicate ids.length none, (List.range' i ids.length).map (BitVec.ofNat 32)) := by
  induction ids generalizing i with
  | nil => rfl
  | cons id ids ih =>
    rw [List.length_cons, List.replicate_succ, resolve]
    simp only [ih]
    rfl

theorem Agree.full {txs txs' : List Transaction} (h : Agree (txs'.map some) txs) : txs' = txs := by
  rw [Agree, List.forall₂_map_left_iff] at h
  exact List.forall₂_eq_eq_eq ▸ h.imp fun tx tx' heq => heq tx rfl

variable {missing : List (BitVec 32)}

variable {slots : Slots} {txs : List Transaction}

theorem resolve_agrees {f : Transaction → Vector UInt8 6} {i : ℕ} {queues : BitVec 64 → List Transaction}
    (h : ∀ tx ∈ txs, ∀ t ∈ queues (key48 (f tx)), t = tx)
    (hr : resolve i (List.replicate txs.length none) (txs.map f) queues = .ok (slots, missing)) :
    Agree slots txs := by
  induction txs generalizing i queues slots missing with
  | nil =>
    cases hr
    exact List.Forall₂.nil
  | cons tx txs ih =>
    rw [List.forall_mem_cons] at h
    rw [List.length_cons, List.replicate_succ, List.map_cons, resolve] at hr
    cases hq : queues (key48 (f tx)) with
    | nil =>
      rw [hq] at hr
      cases hrest : resolve (i + 1) (List.replicate txs.length none) (txs.map f) queues with
      | error e => simp [hrest, bind, Except.bind] at hr
      | ok r =>
        simp only [hrest] at hr
        cases hr
        exact List.Forall₂.cons (by simp) (ih h.2 hrest)
    | cons t queue =>
      rw [hq] at hr
      cases hrest : resolve (i + 1) (List.replicate txs.length none) (txs.map f)
        (Function.update queues (key48 (f tx)) queue) with
      | error e => simp [hrest, bind, Except.bind] at hr
      | ok r =>
        simp only [hrest] at hr
        cases hr
        have ht : t = tx := h.1 t (by simp [hq])
        refine List.Forall₂.cons (by simp [ht]) (ih ?_ hrest)
        intro tx' htx' t' ht'
        by_cases hid : key48 (f tx') = key48 (f tx)
        · rw [hid, Function.update_self] at ht'
          refine h.2 tx' htx' t' ?_
          rw [hid, hq]
          exact List.mem_cons_of_mem _ ht'
        · rw [Function.update_of_ne hid] at ht'
          exact h.2 tx' htx' t' ht'

theorem decoded_diffs {prev : ℤ} (hprev : -1 ≤ prev) (h : missing.Pairwise fun a b => a.toNat < b.toNat)
    (hlow : ∀ m ∈ missing, prev < m.toNat) :
    decoded prev ((PartialBlock.diffs prev missing).map BitVec.toNat) = missing.map fun m => (m.toNat : ℤ) := by
  induction missing generalizing prev with
  | nil => rfl
  | cons m missing ih =>
    rw [List.pairwise_cons] at h
    have hm := hlow m (by simp)
    have hdiff : ((BitVec.ofInt 32 (m.toNat - prev - 1)).toNat : ℤ) = m.toNat - prev - 1 := by
      rw [BitVec.toNat_ofInt, Int.toNat_of_nonneg (by omega)]
      exact Int.emod_eq_of_lt (by omega) (by omega)
    have hidx : prev + ((BitVec.ofInt 32 (m.toNat - prev - 1)).toNat : ℤ) + 1 = m.toNat := by rw [hdiff]; ring
    rw [PartialBlock.diffs, List.map_cons, decoded, hidx, List.map_cons, ih (by omega) h.2]
    intro n hn
    exact_mod_cast h.1 n hn

theorem diffs_lt {prev : ℤ} {bound : ℕ} (hprev : -1 ≤ prev) (h : missing.Pairwise fun a b => a.toNat < b.toNat)
    (hlow : ∀ m ∈ missing, prev < m.toNat) (hbound : ∀ m ∈ missing, m.toNat < bound) : ∀ d ∈ PartialBlock.diffs prev
    missing, d.toNat < bound := by
  induction missing generalizing prev with
  | nil => simp [PartialBlock.diffs]
  | cons m missing ih =>
    rw [List.pairwise_cons] at h
    have hm := hlow m (by simp)
    have hb := hbound m (by simp)
    rw [PartialBlock.diffs, List.forall_mem_cons]
    constructor
    · have hlt := m.isLt
      rw [BitVec.toNat_ofInt, Int.emod_eq_of_lt (by omega) (by omega)]
      omega
    · apply ih (by omega) h.2
      · intro n hn
        exact_mod_cast h.1 n hn
      · exact fun n hn => hbound n (List.mem_cons_of_mem _ hn)

theorem length_diffs (prev : ℤ) (missing : List (BitVec 32)) :
    (PartialBlock.diffs prev missing).length = missing.length := by
  induction missing generalizing prev with
  | nil => rfl
  | cons m missing ih => rw [PartialBlock.diffs, List.length_cons, List.length_cons, ih]

theorem put_slots_holes (h : Agree slots txs) (front : List Transaction) {entries : List (BitVec 32 × Transaction)}
    (hentries : entries.map (fun e => (e.1.toNat, some e.2)) =
      (holes front.length slots).map fun i => (i, (front ++ txs)[i]?)) :
    PartialBlock.put_slots (front.map some ++ slots) entries = some ((front ++ txs).map some) := by
  induction h generalizing front entries with
  | nil =>
    rw [holes, List.map_nil, List.map_eq_nil_iff] at hentries
    rw [hentries, PartialBlock.put_slots, List.append_nil, List.append_nil]
  | @cons slot tx slots txs hslot hrest ih =>
    have hsplit : front ++ tx :: txs = (front ++ [tx]) ++ txs := by simp
    cases slot with
    | some t =>
      rw [hslot t rfl, hsplit, ← @ih (front ++ [tx]) entries]
      · simp
      · rw [hentries, holes, hsplit]
        simp
    | none =>
      cases entries with
      | nil => simp [holes] at hentries
      | cons e entries =>
        simp only [holes, List.map_cons, List.cons.injEq, Prod.mk.injEq] at hentries
        obtain ⟨⟨hidx, htx⟩, hentries⟩ := hentries
        have he : e.2 = tx := by simpa using htx
        rw [PartialBlock.put_slots, put_slot_eq (by simp [hidx]), Option.bind_some, hsplit,
          ← @ih (front ++ [tx]) entries]
        · congr 1
          rw [hidx, he]
          simp
        · rw [hentries, hsplit]
          simp

theorem map_some_filterMap {α β : Type} {f : α → Option β} {values : List α} (h : ∀ a ∈ values, (f a).isSome) :
    (values.filterMap f).map some = values.map f := by
  induction values with
  | nil => rfl
  | cons a values ih =>
    rw [List.forall_mem_cons] at h
    obtain ⟨b, hb⟩ := Option.isSome_iff_exists.mp h.1
    rw [List.filterMap_cons_some hb, List.map_cons, List.map_cons, ih h.2, hb]

theorem outcome_cases (p : PartialBlock) :
    (∃ b, p.into_block = some b ∧ p.outcome = some (.ok (.Complete b))) ∨ p.outcome = some (.ok (.Partial p)) := by
  by_cases h : p.is_complete
  · refine .inl ⟨⟨p.header, p.slots.filterMap id⟩, if_pos h, ?_⟩
    rw [PartialBlock.outcome, if_pos h, PartialBlock.into_block, if_pos (show p.slots.all Option.isSome from h)]
    rfl
  · exact .inr (if_neg h)

section

variable [Platform] {sha256 : List UInt8 → Hash256}

theorem begin_cases (sha256 : List UInt8 → Hash256) (cb : CmpctBlock) (pool : Mempool) :
    PartialBlock.begin sha256 cb pool = some (.error "prefilled index out of range") ∨
      ∃ seated slots missing,
        Seated (-1) cb.prefilled (List.replicate (cb.shortids.length + cb.prefilled.length) none) seated ∧
        Resolved 0 seated slots missing ∧
        PartialBlock.begin sha256 cb pool =
          PartialBlock.outcome ⟨Platform.block_hash cb.header, cb.header, slots, missing⟩ := by
  have hseat := @seat_cases cb.prefilled (-1) (List.replicate (cb.shortids.length + cb.prefilled.length) none)
    (by omega) (by
      intro i _ hi
      rw [List.length_replicate] at hi
      rw [List.getElem?_replicate, if_pos hi])
  rw [List.length_replicate] at hseat
  rcases hseat with herr | ⟨seated, heq, hs⟩
  · left
    rw [PartialBlock.begin, herr]
    rfl
  · right
    have hcount : seated.countP Option.isNone ≤ cb.shortids.length := by
      have hc := hs.holes
      rw [List.countP_replicate, if_pos (by rfl)] at hc
      omega
    obtain ⟨slots, missing, hres, hr⟩ :=
      resolve_ok (i := 0) (claimable (shortid_key sha256 cb.header cb.nonce) pool) hcount
    refine ⟨seated, slots, missing, hs, hr, ?_⟩
    simp only [PartialBlock.begin, heq, Option.bind_some, hres]

structure PartialBlock.Rebuilds (block : Block) (p : PartialBlock) : Prop where
  block_hash : p.block_hash = Platform.block_hash block.header
  missing : p.missing.map BitVec.toNat = holes 0 p.slots
  indexes : decoded (-1) (p.getblocktxn.indexes.map BitVec.toNat) = p.missing.map fun m => (m.toNat : ℤ)
  wire : p.missing.length ≤ MAX_CMPCT_TX_COUNT → ∀ command,
    Reads (get_u32_diffs command) (put_u32_diffs p.getblocktxn.indexes) p.getblocktxn.indexes
  served : (blocktxn block p.getblocktxn).txs.map some = p.missing.map fun m => block.transactions[m.toNat]?
  filled : ∃ q, p.fill (blocktxn block p.getblocktxn).txs = some q ∧ q.into_block = some block

def Reconstruct.Rebuilds (block : Block) : Reconstruct → Prop
  | .Complete b => b = block
  | .Partial p => p.Rebuilds block

theorem rebuilds_of_agree {block : Block} (hlen : block.transactions.length < 65536)
    (hagree : Agree slots block.transactions) (hmissing : missing = (holes 0 slots).map (BitVec.ofNat 32)) :
    PartialBlock.Rebuilds block ⟨Platform.block_hash block.header, block.header, slots, missing⟩ := by
  have hslots : slots.length = block.transactions.length := hagree.length_eq
  have hnat : missing.map BitVec.toNat = holes 0 slots := by
    rw [hmissing, List.map_map]
    conv_rhs => rw [← List.map_id (holes 0 slots)]
    apply List.map_congr_left
    intro i hi
    have hi' := hole_lt hi
    simp only [Function.comp_apply, BitVec.toNat_ofNat, id]
    omega
  have hmem : ∀ m ∈ missing, m.toNat < 65536 := by
    intro m hm
    have hm' := hole_lt (hnat ▸ List.mem_map_of_mem hm)
    omega
  have hasc : missing.Pairwise fun a b => a.toNat < b.toNat := List.pairwise_map.mp (hnat ▸ holes_pairwise 0 slots)
  have hlow : ∀ m ∈ missing, (-1 : ℤ) < m.toNat := fun m _ => by omega
  have hdec := decoded_diffs (le_refl _) hasc hlow
  have hserved : (blocktxn block ⟨Platform.block_hash block.header, PartialBlock.diffs (-1) missing⟩).txs.map some =
      missing.map fun m => block.transactions[m.toNat]? := by
    have hget : ∀ idx ∈ missing.map fun m => (m.toNat : ℤ),
        (if 0 ≤ idx then block.transactions[idx.toNat]? else none).isSome := by
      intro idx hidx
      obtain ⟨m, hm, rfl⟩ := List.mem_map.mp hidx
      have hm' := hole_lt (hnat ▸ List.mem_map_of_mem hm)
      simpa using by omega
    rw [blocktxn, hdec, map_some_filterMap hget, List.map_map]
    apply List.map_congr_left
    intro m _
    simp
  refine ⟨rfl, hnat, hdec, ?_, hserved, ?_⟩
  · intro hcount command
    have hcount' : (PartialBlock.diffs (-1) missing).length ≤ MAX_CMPCT_TX_COUNT := by
      rw [length_diffs]
      exact hcount
    exact list_reads _ _ (by decide) hcount' fun i hi =>
      u32_diff_reads (diffs_lt (le_refl _) hasc hlow hmem i hi) command
  · generalize htxs : (blocktxn block ⟨Platform.block_hash block.header, PartialBlock.diffs (-1) missing⟩).txs = txs
      at hserved
    have hlen' : txs.length = missing.length := by simpa using congrArg List.length hserved
    have hentries : (missing.zip txs).map (fun e => (e.1.toNat, some e.2)) =
        (holes 0 slots).map fun i => (i, block.transactions[i]?) := by
      calc (missing.zip txs).map (fun e => (e.1.toNat, some e.2))
          = (missing.map BitVec.toNat).zip (txs.map some) := by rw [List.zip_map]; rfl
        _ = missing.map fun m => (m.toNat, block.transactions[m.toNat]?) := by rw [hserved, List.zip_map']
        _ = _ := by rw [← hnat, List.map_map]; rfl
    have hput := put_slots_holes hagree [] hentries
    refine ⟨⟨Platform.block_hash block.header, block.header, block.transactions.map some, []⟩, ?_,
      into_block_of_full rfl⟩
    rw [PartialBlock.fill]
    simp only [PartialBlock.getblocktxn, htxs, hlen', min_self, List.take_length, List.drop_length]
    rw [show slots = [].map some ++ slots from rfl, hput]
    rfl

variable {nonce : BitVec 64}

theorem begin_make_eq {header : BlockHeader} {coinbase : Transaction} {rest : List Transaction}
    (hres : resolve 1 (List.replicate rest.length none)
      (rest.map fun tx => shortid_bytes (shortid (shortid_key sha256 header nonce) (Platform.wtxid tx)))
      (claimable (shortid_key sha256 header nonce) pool) = .ok (slots, missing)) :
    PartialBlock.begin sha256 (make_cmpctblock sha256 ⟨header, coinbase :: rest⟩ nonce) pool =
      PartialBlock.outcome ⟨Platform.block_hash header, header, some coinbase :: slots, missing⟩ := by
  generalize hids :
    rest.map (fun tx => shortid_bytes (shortid (shortid_key sha256 header nonce) (Platform.wtxid tx))) = ids at hres
  have hlen : ids.length = rest.length := by rw [← hids, List.length_map]
  have hseat : seat (ids.length + 1) [⟨0, coinbase⟩] (-1) (List.replicate (ids.length + 1) none) =
      some (.ok (some coinbase :: List.replicate rest.length none)) := by
    simp only [seat]
    rw [if_neg (by simp), put_slot_eq (by simp)]
    simp [List.replicate_succ, hlen]
  have hcons : resolve 0 (some coinbase :: List.replicate rest.length none) ids
      (claimable (shortid_key sha256 header nonce) pool) = .ok (some coinbase :: slots, missing) := by
    rw [resolve, hres]
    rfl
  simp only [PartialBlock.begin, make_cmpctblock, List.length_singleton, hids, hseat, Option.bind_some, hcons]

theorem begin_make {block : Block}
    (hinj : Set.InjOn (fun tx => shortid (shortid_key sha256 block.header nonce) (Platform.wtxid tx))
      {tx | tx ∈ pool.iter_txs ∨ tx ∈ block.transactions}) :
    ∃ slots missing, Agree slots block.transactions ∧ missing = (holes 0 slots).map (BitVec.ofNat 32) ∧
      PartialBlock.begin sha256 (make_cmpctblock sha256 block nonce) pool =
        PartialBlock.outcome ⟨Platform.block_hash block.header, block.header, slots, missing⟩ := by
  obtain ⟨header, transactions⟩ := block
  cases transactions with
  | nil => exact ⟨[], [], List.Forall₂.nil, rfl, rfl⟩
  | cons coinbase rest =>
    have hcount : (List.replicate rest.length (none : Option Transaction)).countP Option.isNone ≤
        (rest.map fun tx => shortid_bytes
          (shortid (shortid_key sha256 header nonce) (Platform.wtxid tx))).length := by
      rw [List.length_map]
      exact List.countP_le_length.trans (by simp)
    obtain ⟨slots, missing, hres, hr⟩ := resolve_ok (i := 1) (claimable (shortid_key sha256 header nonce) pool) hcount
    refine ⟨some coinbase :: slots, missing, List.Forall₂.cons (by simp) ?_, hr.missing, begin_make_eq hres⟩
    refine resolve_agrees ?_ hres
    intro tx htx t ht
    rw [key48_shortid_bytes, mem_claimable] at ht
    exact hinj (.inl ht.1) (.inr (List.mem_cons_of_mem _ htx)) ht.2

/-- A block sent as short ids is rebuilt exactly, whatever the pool holds of it, and what is begun from any message
keeps the message's layout to the end. -/
theorem compact_blocks_exact (sha256 : List UInt8 → Hash256) (pool : Mempool) :
    (∀ block nonce, block.transactions.length < 65536 →
      Set.InjOn (fun tx => shortid (shortid_key sha256 block.header nonce) (Platform.wtxid tx))
        {tx | tx ∈ pool.iter_txs ∨ tx ∈ block.transactions} →
      ∃ r, PartialBlock.begin sha256 (make_cmpctblock sha256 block nonce) pool = some (.ok r) ∧ r.Rebuilds block) ∧
    ∀ cb, PartialBlock.begin sha256 cb pool ≠ none ∧
      PartialBlock.begin sha256 cb pool ≠ some (.error "shortid/prefilled layout mismatch") ∧
      ∀ r, PartialBlock.begin sha256 cb pool = some (.ok r) →
        (∀ p, r = .Partial p → ∀ replies, p.fills replies ≠ none) ∧
        ∀ replies b, r.finished replies = some b →
          b.transactions.length = cb.shortids.length + cb.prefilled.length ∧
          List.Forall₂ (fun idx (p : PrefilledTx) => 0 ≤ idx ∧ b.transactions[idx.toNat]? = some p.tx)
            (decoded (-1) (cb.prefilled.map fun p => p.index_diff.toNat)) cb.prefilled := by
  constructor
  · intro block nonce hlen hinj
    obtain ⟨slots, missing, hagree, hmissing, hbegin⟩ := begin_make hinj
    rw [hbegin]
    rcases outcome_cases ⟨Platform.block_hash block.header, block.header, slots, missing⟩ with ⟨b, hb, ho⟩ | ho
    · refine ⟨_, ho, ?_⟩
      obtain ⟨hheader, hslots⟩ := into_block_eq hb
      obtain ⟨header, transactions⟩ := b
      obtain rfl : block.header = header := hheader
      obtain rfl : slots = transactions.map some := hslots
      rw [Reconstruct.Rebuilds, hagree.full]
    · exact ⟨_, ho, rebuilds_of_agree hlen hagree hmissing⟩
  · intro cb
    rcases begin_cases sha256 cb pool with herr | ⟨seated, slots, missing, hs, hr, hbegin⟩
    · rw [herr]
      exact ⟨by simp, by simp, by simp⟩
    have hf := hr.filling (Platform.block_hash cb.header) cb.header
    have hlayout : ∀ {p b}, Filling seated p → p.into_block = some b →
        b.transactions.length = cb.shortids.length + cb.prefilled.length ∧
        List.Forall₂ (fun idx (p : PrefilledTx) => 0 ≤ idx ∧ b.transactions[idx.toNat]? = some p.tx)
          (decoded (-1) (cb.prefilled.map fun p => p.index_diff.toNat)) cb.prefilled := by
      intro p b hp hb
      obtain ⟨hlen, hseats⟩ := hp.into_block hb
      refine ⟨by rw [hlen, hs.length, List.length_replicate], hs.seats.imp ?_⟩
      exact fun idx p h => ⟨h.1, hseats _ _ h.2⟩
    rw [hbegin]
    rcases outcome_cases ⟨Platform.block_hash cb.header, cb.header, slots, missing⟩ with ⟨b, hb, ho⟩ | ho
    · rw [ho]
      refine ⟨by simp, by simp, ?_⟩
      intro r hr
      cases hr
      refine ⟨by simp, ?_⟩
      intro replies b' hb'
      cases hb'
      exact hlayout hf hb
    · rw [ho]
      refine ⟨by simp, by simp, ?_⟩
      intro r hr
      cases hr
      constructor
      · intro p hp replies
        cases hp
        obtain ⟨q, hq, -⟩ := hf.fills replies
        rw [hq]
        simp
      · intro replies b hb
        obtain ⟨q, hq, hfill⟩ := hf.fills replies
        rw [Reconstruct.finished, hq] at hb
        exact hlayout hfill hb

theorem begin_empty (header : BlockHeader) (coinbase : Transaction) {rest : List Transaction} (hrest : rest ≠ [])
    (nonce : BitVec 64) : ∃ p, PartialBlock.begin sha256 (make_cmpctblock sha256 ⟨header, coinbase :: rest⟩ nonce)
      Mempool.new = some (.ok (.Partial p)) ∧ p.getblocktxn.indexes.length = rest.length := by
  have hres := resolve_empty 1
    (rest.map fun tx => shortid_bytes (shortid (shortid_key sha256 header nonce) (Platform.wtxid tx)))
  rw [List.length_map] at hres
  refine ⟨⟨Platform.block_hash header, header, some coinbase :: List.replicate rest.length none,
    (List.range' 1 rest.length).map (BitVec.ofNat 32)⟩, ?_, ?_⟩
  · rw [begin_make_eq hres, PartialBlock.outcome, if_neg]
    simp [PartialBlock.is_complete, hrest]
  · rw [PartialBlock.getblocktxn, length_diffs, List.length_map, List.length_range']

end

theorem long_request_refused (command : String) {indexes : List (BitVec 32)} (h : MAX_CMPCT_TX_COUNT < indexes.length)
    (hsize : indexes.length ≤ MAX_SIZE) :
    get_u32_diffs command (put_u32_diffs indexes) = .error ⟨command, .text "index count exceeds bound"⟩ := by
  have hcount := lift_reads (read_compact_size_inverts.reads hsize) command
  rw [get_u32_diffs, get_list, put_u32_diffs, put_list, bind_ok (hcount _), if_pos h]
  rfl

section

attribute [local instance] Platform.sample

def sample_tx (lock_time : ℕ) : Transaction := ⟨2, [], [], lock_time⟩

def sample_pair : Block := ⟨sample_header 0 0 0, [sample_tx 1, sample_tx 2]⟩

theorem compact_blocks_exact_pair :
    (∃ r, PartialBlock.begin (fun _ => 0) (make_cmpctblock (fun _ => 0) sample_pair 0) Mempool.new = some (.ok r) ∧
      r.Rebuilds sample_pair) ∧
    PartialBlock.begin (fun _ => 0) (make_cmpctblock (fun _ => 0) sample_pair 0) Mempool.new ≠ none := by
  have hne : shortid (shortid_key (fun _ => 0) sample_pair.header 0) 1 ≠
      shortid (shortid_key (fun _ => 0) sample_pair.header 0) 2 := by decide +kernel
  refine ⟨(compact_blocks_exact (fun _ => 0) Mempool.new).1 sample_pair 0 (by decide) ?_,
    ((compact_blocks_exact (fun _ => 0) Mempool.new).2 _).1⟩
  rintro a ha b hb hab
  have hmem : ∀ tx, tx ∈ Mempool.new.iter_txs ∨ tx ∈ sample_pair.transactions →
      tx = sample_tx 1 ∨ tx = sample_tx 2 := by
    rintro tx (h | h)
    · cases h
    · simpa [sample_pair] using h
  rcases hmem a ha with rfl | rfl <;> rcases hmem b hb with rfl | rfl
  · rfl
  · exact absurd hab hne
  · exact absurd hab.symm hne
  · rfl

def crowded : Block := ⟨sample_header 0 0 0, List.replicate 20002 (sample_tx 1)⟩

theorem crowded_request_refused :
    crowded.transactions.length < 65536 ∧
    Set.InjOn (fun tx => shortid (shortid_key (fun _ => 0) crowded.header 0) (Platform.wtxid tx))
      {tx | tx ∈ Mempool.new.iter_txs ∨ tx ∈ crowded.transactions} ∧
    ∃ p, PartialBlock.begin (fun _ => 0) (make_cmpctblock (fun _ => 0) crowded 0) Mempool.new =
        some (.ok (.Partial p)) ∧
      get_u32_diffs "getblocktxn" (put_u32_diffs p.getblocktxn.indexes) =
        .error ⟨"getblocktxn", .text "index count exceeds bound"⟩ := by
  refine ⟨by rw [crowded, List.length_replicate]; norm_num, ?_, ?_⟩
  · have hmem : ∀ tx, tx ∈ Mempool.new.iter_txs ∨ tx ∈ crowded.transactions → tx = sample_tx 1 := by
      rintro tx (h | h)
      · cases h
      · exact List.eq_of_mem_replicate h
    intro a ha b hb _
    rw [hmem a ha, hmem b hb]
  · obtain ⟨p, hp, hlen⟩ := @begin_empty _ (fun _ => 0) (sample_header 0 0 0) (sample_tx 1)
      (List.replicate 20001 (sample_tx 1)) (by rw [Ne, List.replicate_eq_nil_iff]; norm_num) 0
    rw [List.length_replicate] at hlen
    have hlong : MAX_CMPCT_TX_COUNT < p.getblocktxn.indexes.length := by rw [hlen, MAX_CMPCT_TX_COUNT]; norm_num
    have hsize : p.getblocktxn.indexes.length ≤ MAX_SIZE := by rw [hlen, MAX_SIZE]; norm_num
    refine ⟨p, ?_, long_request_refused _ hlong hsize⟩
    rw [← hp, crowded, List.replicate_succ]

end

end AvilaNode.Compact
