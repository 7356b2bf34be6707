import AvilaNode.FilterIndex

/-! What the filter index holds beside the active chain, over every run of connects, disconnects and restarts. -/

namespace AvilaNode

open ByteReader ByteStrings Decoder Layers

namespace FilterIndex

/-- What a block hash names: the block its header commits to, and the coins it spends over its ancestors. -/
structure Archive where
  block : BlockHash → Block
  undo : BlockHash → BlockUndo

variable [Platform]

namespace Archive

variable (E : Archive)

def parent (hash : BlockHash) : BlockHash := (E.block hash).header.prev_block_hash

structure Chain (chain : List BlockHash) : Prop where
  named : ∀ hash ∈ chain, (E.block hash).block_hash = hash
  linked : ∀ {height hash}, chain[height + 1]? = some hash → chain[height]? = some (E.parent hash)
  limits : ∀ hash ∈ chain, (E.block hash).WithinLimits
  spent : ∀ hash ∈ chain, ((E.undo hash).txs.flatMap TxUndo.spent).length
    ≤ ((E.block hash).transactions.flatMap Transaction.inputs).length
  short : chain.length ≤ 2 ^ 32

/-- The bodies and undo records a chainstate answers with for `chain`. Undo records are stored from
height 1 on; the genesis block spends nothing. -/
structure Stores (chain : List BlockHash) (body : BlockHash → Option Block) (undo : ℕ → Option BlockUndo) :
    Prop where
  body : ∀ {hash block}, body hash = some block → block = E.block hash
  undo : ∀ {height hash}, chain[height]? = some hash → (undo height).getD ⟨[]⟩ = E.undo hash

def filter (hash : BlockHash) : List UInt8 := Gcs.build_basic (E.block hash) (E.undo hash)

def header : ℕ → BlockHash → Hash256
  | 0, hash => Gcs.compute_header (Gcs.filter_hash (E.filter hash)) 0
  | height + 1, hash => Gcs.compute_header (Gcs.filter_hash (E.filter hash)) (header height (E.parent hash))

def entry (height : ℕ) (hash : BlockHash) : FilterEntry := (hash, E.filter hash, E.header height hash)

def tip_header (chain : List BlockHash) : Hash256 :=
  match chain.getLast? with
  | none => 0
  | some hash => E.header (chain.length - 1) hash

structure Filed (record : ℕ × FilterEntry) : Prop where
  height : record.1 < 2 ^ 32
  filter : record.2.2.1.length < 2 ^ 32
  entry : record.2 = E.entry record.1 record.2.1

def Logged (log : Option (List UInt8)) : Prop :=
  ∃ records : List (ℕ × FilterEntry), log = some (MAGIC ++ records.flatMap record_bytes) ∧ ∀ r ∈ records, E.Filed r

end Archive

/-- What the restarted index needs of the log it replays: the active blocks it holds are those below some
height `k`, and that height's parent was logged last. -/
structure Resumes (file : Option (List UInt8)) (chain : List BlockHash) (body : BlockHash → Option Block) (k : ℕ) :
    Prop where
  within : k ≤ chain.length
  held : ∀ height hash, chain[height]? = some hash →
    (((open_log file).by_height.lookup height).any (fun entry => entry.1 == hash) = true ↔ height < k)
  below_tip : ∀ height, (open_log file).by_height.lookup height ≠ none → height < chain.length
  last : (open_log file).last_header = (open_log file).header_below k
  bodies : ∀ height hash, k ≤ height → chain[height]? = some hash → body hash ≠ none

def Resumable (file : Option (List UInt8)) (chain : List BlockHash) (body : BlockHash → Option Block) : Prop :=
  ∃ k, Resumes file chain body k

/-- Runs of the index beside an active chain; every backfill meets `meets`. A restart may find any chain. -/
inductive Follows (E : Archive) (meets : Option (List UInt8) → List BlockHash → (BlockHash → Option Block) → Prop) :
    List BlockHash → FilterIndex → Prop
  | opened {chain : List BlockHash} {body : BlockHash → Option Block} {undo : ℕ → Option BlockUndo}
      (hc : E.Chain chain) (hs : E.Stores chain body undo) (hm : meets none chain body) :
      Follows E meets chain (enable none chain body undo)
  | connect {chain : List BlockHash} {idx : FilterIndex} {hash : BlockHash} (h : Follows E meets chain idx)
      (hc : E.Chain (chain ++ [hash])) :
      Follows E meets (chain ++ [hash]) (idx.append chain.length (E.block hash) (E.undo hash))
  | disconnect {chain : List BlockHash} {idx : FilterIndex} {hash : BlockHash}
      (h : Follows E meets (chain ++ [hash]) idx) : Follows E meets chain (idx.disconnect chain.length)
  | reopen {chain next : List BlockHash} {idx : FilterIndex} {body : BlockHash → Option Block}
      {undo : ℕ → Option BlockUndo} (h : Follows E meets chain idx) (hc : E.Chain next)
      (hs : E.Stores next body undo) (hm : meets idx.log next body) :
      Follows E meets next (enable idx.log next body undo)

structure FollowsChain (chain : List BlockHash) (idx : FilterIndex) : Prop where
  active : ∀ height hash, chain[height]? = some hash →
    ∃ filter header, idx.by_height.lookup height = some (hash, filter, header)
  above : ∀ height, chain.length ≤ height → idx.by_height.lookup height = none
  header : ∀ height hash filter header, idx.by_height.lookup height = some (hash, filter, header) →
    header = Gcs.compute_header (Gcs.filter_hash filter) (idx.header_below height)

omit [Platform] in
@[simp] theorem demote_by_height (idx : FilterIndex) (height j : ℕ) :
    (idx.demote height).by_height.lookup j = if j = height then none else idx.by_height.lookup j := by
  unfold demote
  cases h : idx.by_height.lookup height with
  | none =>
    dsimp only
    split
    · rename_i hj
      rw [hj, h]
    · rfl
  | some old => exact lookup_erase_eq _ _ _

omit [Platform] in
@[simp] theorem demote_log (idx : FilterIndex) (height : ℕ) : (idx.demote height).log = idx.log := by
  unfold demote
  split <;> rfl

omit [Platform] in
@[simp] theorem insert_by_height (idx : FilterIndex) (height j : ℕ) (entry : FilterEntry) :
    (idx.insert height entry).by_height.lookup j = if j = height then some entry else idx.by_height.lookup j := by
  rw [insert]
  rw [lookup_insert_eq, demote_by_height]
  split <;> rfl

omit [Platform] in
theorem read_filter_inverts : Inverts read_filter (fun filter => le 4 filter.length ++ filter)
    (fun filter => filter.length < 2 ^ 32) where
  read_write := by
    intro filter rest hf
    rw [List.append_assoc, read_filter, bind_ok (read_u32_le_inverts.read_write _ hf)]
    exact (read_bytes_inverts filter.length).read_write rest rfl
  write_read := by
    intro bytes filter rest h
    obtain ⟨flen, middle, hl, hf⟩ := bind_eq_ok.mp h
    obtain ⟨hb, rfl⟩ := read_u32_le_inverts.write_read hl
    obtain ⟨rfl, rfl⟩ := (read_bytes_inverts flen).write_read hf
    exact ⟨hb, List.append_assoc _ _ _⟩

omit [Platform] in
theorem read_entry_inverts : Inverts read_entry record_bytes
    (fun record => record.1 < 2 ^ 32 ∧ record.2.2.1.length < 2 ^ 32) where
  read_write := by
    rintro ⟨height, hash, filter, header⟩ rest ⟨hh, hf⟩
    rw [record_bytes, List.append_assoc, read_entry, bind_ok (read_u32_le_inverts.read_write _ hh),
      List.append_assoc, bind_ok (read_hash_inverts.read_write _ trivial), List.append_assoc,
      bind_ok (read_filter_inverts.read_write _ hf), bind_ok (read_hash_inverts.read_write _ trivial)]
    rfl
  write_read := by
    intro bytes record rest h
    obtain ⟨height, b1, hh, h⟩ := bind_eq_ok.mp h
    obtain ⟨hash, b2, hb, h⟩ := bind_eq_ok.mp h
    obtain ⟨filter, b3, hf, h⟩ := bind_eq_ok.mp h
    obtain ⟨header, b4, hx, h⟩ := bind_eq_ok.mp h
    cases h
    obtain ⟨hheight, rfl⟩ := read_u32_le_inverts.write_read hh
    obtain ⟨-, rfl⟩ := read_hash_inverts.write_read hb
    obtain ⟨hfilter, rfl⟩ := read_filter_inverts.write_read hf
    obtain ⟨-, rfl⟩ := read_hash_inverts.write_read hx
    exact ⟨⟨hheight, hfilter⟩, by simp [record_bytes]⟩

omit [Platform] in
theorem length_record_bytes (record : ℕ × FilterEntry) :
    (record_bytes record).length = 72 + record.2.2.1.length := by
  simp only [record_bytes, List.length_append, length_le, Hash256.length_to_bytes]
  omega

variable {body : BlockHash → Option Block} {undo : ℕ → Option BlockUndo} {records : List (ℕ × FilterEntry)}
  {file : Option (List UInt8)}

theorem open_log_records {E : Archive} (hr : ∀ r ∈ records, E.Filed r) :
    open_log (some (MAGIC ++ records.flatMap record_bytes)) =
      { records.foldl apply_record empty with log := some (MAGIC ++ records.flatMap record_bytes) } := by
  have hl : records.length ≤ (records.flatMap record_bytes).length := by
    clear hr
    induction records with
    | nil => simp
    | cons r records ih =>
      have hb := length_record_bytes r
      rw [List.flatMap_cons, List.length_append, List.length_cons]
      omega
  have hscan : RecordLog.scan read_record apply_record (MAGIC ++ records.flatMap record_bytes).length empty
      (records.flatMap record_bytes ++ []) = (records.foldl apply_record empty, []) := by
    apply RecordLog.scan_records
    · rintro front r back rfl
      have hf := hr r (by simp)
      rw [read_record, read_entry_inverts.read_write _ ⟨hf.height, hf.filter⟩]
      rfl
    · rfl
    · rw [List.length_append]
      omega
  rw [List.append_nil] at hscan
  have hm : MAGIC.isPrefixOf (MAGIC ++ records.flatMap record_bytes) = true := by simp
  simp only [open_log, hm, if_true, List.drop_left, hscan, List.length_nil, Nat.sub_zero, List.take_length]

variable {E : Archive} {chain front back : List BlockHash} {idx : FilterIndex} {later : ℕ → Option FilterEntry}

variable {hash : BlockHash}

theorem Archive.Chain.filter_lt (h : E.Chain chain) (hm : hash ∈ chain) : (E.filter hash).length < 2 ^ 32 := by
  have hf := Gcs.length_build_basic (E.block hash) (E.undo hash)
  have hb := Gcs.length_basic_elements (E.block hash) (E.undo hash)
  have hp := (h.limits hash hm).parts_le
  have hs := h.spent hash hm
  rw [Archive.filter]
  omega

@[simp] theorem Archive.tip_header_append (hash : BlockHash) :
    E.tip_header (front ++ [hash]) = E.header front.length hash := by
  simp [Archive.tip_header]

theorem Archive.Chain.of_append (h : E.Chain (front ++ back)) : E.Chain front where
  named hash hm := h.named hash (List.mem_append_left back hm)
  linked := by
    intro height hash hx
    have hlt := (List.getElem?_eq_some_iff.mp hx).1
    have hp := h.linked (by rw [List.getElem?_append_left hlt, hx])
    rwa [List.getElem?_append_left (by omega)] at hp
  limits hash hm := h.limits hash (List.mem_append_left back hm)
  spent hash hm := h.spent hash (List.mem_append_left back hm)
  short := by
    have hs := h.short
    rw [List.length_append] at hs
    omega

theorem Archive.Chain.header_eq (h : E.Chain (front ++ [hash])) :
    E.header front.length hash = Gcs.compute_header (Gcs.filter_hash (E.filter hash)) (E.tip_header front) := by
  rcases List.eq_nil_or_concat' front with rfl | ⟨front, parent, rfl⟩
  · rfl
  · have hget : (front ++ [parent] ++ [hash])[front.length + 1]? = some hash := by simp
    have hp : parent = E.parent hash := by simpa using h.linked hget
    simp [Archive.header, hp]

omit [Platform] in
theorem replay_mem {height : ℕ} {entry : FilterEntry}
    (h : (records.foldl apply_record idx).by_height.lookup height = some entry) :
    (height, entry) ∈ records ∨ idx.by_height.lookup height = some entry := by
  induction records generalizing idx with
  | nil => exact .inr h
  | cons r records ih =>
    rcases ih h with h | h
    · exact .inl (List.mem_cons_of_mem _ h)
    rw [apply_record, insert_by_height] at h
    split at h
    · rename_i hh
      rw [hh, ← Option.some.inj h]
      exact .inl List.mem_cons_self
    · exact .inr h

theorem open_log_filed (h : file = none ∨ E.Logged file) :
    E.Logged (open_log file).log ∧
      ∀ height entry, (open_log file).by_height.lookup height = some entry → E.Filed (height, entry) := by
  rcases h with rfl | ⟨records, rfl, hr⟩
  · refine ⟨⟨[], by simp [open_log], by simp⟩, fun height entry he => ?_⟩
    simp [open_log, empty] at he
  rw [open_log_records hr]
  refine ⟨⟨records, rfl, hr⟩, fun height entry he => ?_⟩
  rcases replay_mem he with hm | he
  · exact hr _ hm
  · simp [empty] at he

theorem header_below_eq
    (h : ∀ height hash, front[height]? = some hash → idx.by_height.lookup height = some (E.entry height hash)) :
    idx.header_below front.length = E.tip_header front := by
  rcases List.eq_nil_or_concat' front with rfl | ⟨front, parent, rfl⟩
  · rfl
  · have hp := h front.length parent (by simp)
    rw [List.length_append, List.length_singleton, FilterIndex.header_below, header_at, hp,
      Archive.tip_header_append]
    rfl

structure Filled (E : Archive) (front : List BlockHash) (later : ℕ → Option FilterEntry) (idx : FilterIndex) :
    Prop where
  below : ∀ height hash, front[height]? = some hash → idx.by_height.lookup height = some (E.entry height hash)
  above : ∀ height, front.length ≤ height → idx.by_height.lookup height = later height
  cursor : idx.last_header = E.tip_header front
  log : E.Logged idx.log

theorem Filled.append (h : Filled E front later idx) (hc : E.Chain (front ++ [hash])) :
    Filled E (front ++ [hash]) later (idx.append front.length (E.block hash) (E.undo hash)) := by
  have hname : (E.block hash).block_hash = hash := hc.named hash (by simp)
  have hentry : (((E.block hash).block_hash, Gcs.build_basic (E.block hash) (E.undo hash),
      Gcs.compute_header (Gcs.filter_hash (Gcs.build_basic (E.block hash) (E.undo hash))) idx.last_header) :
        FilterEntry) = E.entry front.length hash := by
    rw [hname, h.cursor, Archive.entry, hc.header_eq]
    rfl
  have hfiled : E.Filed (front.length, E.entry front.length hash) := by
    have hs := hc.short
    rw [List.length_append, List.length_singleton] at hs
    exact ⟨by dsimp only; omega, hc.filter_lt (by simp), rfl⟩
  obtain ⟨records, hlog, hr⟩ := h.log
  refine ⟨fun height x hx => ?_, fun height hh => ?_, ?_, ?_⟩
  · rw [FilterIndex.append]
    rw [insert_by_height, hentry]
    rw [List.getElem?_append] at hx
    split at hx
    · rename_i hlt
      rw [if_neg (by omega)]
      exact h.below height x hx
    · have hz : height - front.length = 0 := by
        by_contra hn
        rw [List.getElem?_eq_none (by rw [List.length_singleton]; omega)] at hx
        cases hx
      rw [hz] at hx
      obtain rfl := Option.some.inj hx
      rw [if_pos (by omega), show height = front.length by omega]
  · rw [List.length_append, List.length_singleton] at hh
    rw [FilterIndex.append]
    rw [insert_by_height, if_neg (by omega)]
    exact h.above height (by omega)
  · rw [FilterIndex.append]
    rw [h.cursor, Archive.tip_header_append, hc.header_eq]
    rfl
  · refine ⟨records ++ [(front.length, E.entry front.length hash)], ?_, fun r hm => ?_⟩
    · have hlog' : (idx.demote front.length).log = idx.log := demote_log _ _
      rw [FilterIndex.append]
      dsimp only [FilterIndex.insert]
      rw [hlog', hlog, Option.map_some, hentry, List.flatMap_append, List.append_assoc]
      simp
    · rcases List.mem_append.mp hm with hm | hm
      · exact hr r hm
      · rw [List.mem_singleton.mp hm]
        exact hfiled

theorem Filled.disconnect (h : Filled E (chain ++ [hash]) (fun _ => none) idx) :
    Filled E chain (fun _ => none) (idx.disconnect chain.length) := by
  have hlookup (j : ℕ) : (idx.disconnect chain.length).by_height.lookup j
      = if j = chain.length then none else idx.by_height.lookup j := demote_by_height idx chain.length j
  have hfront : ∀ height x, chain[height]? = some x →
      (idx.disconnect chain.length).by_height.lookup height = some (E.entry height x) := by
    intro height x hx
    have hlt := (List.getElem?_eq_some_iff.mp hx).1
    rw [hlookup, if_neg (by omega)]
    exact h.below height x (by rw [List.getElem?_append_left hlt, hx])
  refine ⟨hfront, fun height hh => ?_, ?_, ?_⟩
  · rw [hlookup]
    split
    · rfl
    · exact h.above height (by rw [List.length_append, List.length_singleton]; omega)
  · change (idx.demote chain.length).header_below chain.length = _
    exact header_below_eq hfront
  · change E.Logged (idx.demote chain.length).log
    rw [demote_log]
    exact h.log

theorem Filled.backfill (h : Filled E front later idx) (hc : E.Chain (front ++ back))
    (hs : E.Stores (front ++ back) body undo)
    (hl : ∀ height hash, front.length ≤ height → (front ++ back)[height]? = some hash →
      (later height).any (fun entry => entry.1 == hash) = false ∧ body hash ≠ none) :
    Filled E (front ++ back) later ((back.zipIdx front.length).foldl (FilterIndex.backfill body undo) idx) := by
  induction back generalizing front idx with
  | nil => simpa using h
  | cons hash back ih =>
    have hget : (front ++ hash :: back)[front.length]? = some hash := by simp
    obtain ⟨hskip, hbody⟩ := hl front.length hash le_rfl hget
    obtain ⟨block, hbody⟩ := Option.ne_none_iff_exists'.mp hbody
    have hstep : FilterIndex.backfill body undo idx (hash, front.length)
        = idx.append front.length (E.block hash) (E.undo hash) := by
      rw [FilterIndex.backfill]
      rw [h.above front.length le_rfl, hskip, hbody, hs.body hbody, hs.undo hget]
      rfl
    rw [List.zipIdx_cons, List.foldl_cons, hstep]
    have hsplit : front ++ hash :: back = (front ++ [hash]) ++ back := by simp
    rw [hsplit] at hc hs hl ⊢
    have h := ih (h.append hc.of_append) hc hs fun height x hh hx => hl height x (by simp at hh; omega) hx
    rwa [List.length_append, List.length_singleton] at h

theorem backfill_held {heights : List (BlockHash × ℕ)}
    (h : ∀ p ∈ heights, (idx.by_height.lookup p.2).any (fun entry => entry.1 == p.1) = true) :
    heights.foldl (FilterIndex.backfill body undo) idx = idx := by
  induction heights with
  | nil => rfl
  | cons p heights ih =>
    rw [List.forall_mem_cons] at h
    rw [List.foldl_cons, FilterIndex.backfill, if_pos h.1]
    exact ih h.2

theorem Resumes.filled {k : ℕ} (h : Resumes file chain body k) (hf : file = none ∨ E.Logged file) (hc : E.Chain chain)
    (hs : E.Stores chain body undo) : Filled E chain (fun _ => none) (enable file chain body undo) := by
  obtain ⟨hlog, hfiled⟩ := open_log_filed hf
  have hlen : (chain.take k).length = k := by rw [List.length_take, Nat.min_eq_left h.within]
  have hget : ∀ height hash, (chain.take k)[height]? = some hash → height < k ∧ chain[height]? = some hash := by
    intro height hash hx
    have hlt := (List.getElem?_eq_some_iff.mp hx).1
    rw [List.getElem?_take_of_lt (by omega)] at hx
    exact ⟨by omega, hx⟩
  have hbelow : ∀ height hash, (chain.take k)[height]? = some hash →
      (open_log file).by_height.lookup height = some (E.entry height hash) := by
    intro height hash hx
    obtain ⟨hk, hx⟩ := hget height hash hx
    have hany := (h.held height hash hx).mpr hk
    cases he : (open_log file).by_height.lookup height with
    | none => simp [he] at hany
    | some entry =>
      have hh : entry.1 = hash := by simpa [he] using hany
      have hentry : entry = E.entry height entry.1 := (hfiled height entry he).entry
      rw [← hh]
      exact congrArg some hentry
  have hstart : Filled E (chain.take k) (fun height => (open_log file).by_height.lookup height) (open_log file) := by
    refine ⟨hbelow, fun _ _ => rfl, ?_, hlog⟩
    have hb := header_below_eq hbelow
    rw [hlen] at hb
    rw [h.last, hb]
  have hsplit : chain.take k ++ chain.drop k = chain := List.take_append_drop k chain
  have hheld : (chain.take k).zipIdx.foldl (FilterIndex.backfill body undo) (open_log file) = open_log file := by
    apply backfill_held
    rintro ⟨hash, height⟩ hm
    obtain ⟨hk, hx⟩ := hget height hash (List.mem_zipIdx_iff_getElem?.mp hm)
    exact (h.held height hash hx).mpr hk
  rw [← hsplit] at hc hs
  have hfilled := hstart.backfill hc hs fun height hash hh hx => by
    rw [hsplit] at hx
    rw [hlen] at hh
    refine ⟨?_, h.bodies height hash hh hx⟩
    rw [← Bool.not_eq_true, h.held height hash hx]
    omega
  have heq : enable file chain body undo
      = ((chain.drop k).zipIdx (chain.take k).length).foldl (FilterIndex.backfill body undo) (open_log file) := by
    rw [enable, ← hsplit, List.zipIdx_append, List.foldl_append, hheld]
    simp
  rw [hsplit, ← heq] at hfilled
  refine ⟨hfilled.below, fun height hh => ?_, hfilled.cursor, hfilled.log⟩
  rw [hfilled.above height hh]
  by_contra hn
  have hlt := h.below_tip height hn
  omega

theorem Filled.follows (h : Filled E chain (fun _ => none) idx) (hc : E.Chain chain) : FollowsChain chain idx where
  active height hash hx := ⟨_, _, h.below height hash hx⟩
  above := h.above
  header := by
    intro height hash filter header he
    have hlt : height < chain.length := by
      by_contra hn
      rw [h.above height (by omega)] at he
      cases he
    have hx : chain[height]? = some chain[height] := List.getElem?_eq_getElem hlt
    have htake : chain.take height ++ [chain[height]] ++ chain.drop (height + 1) = chain := by
      rw [List.take_append_getElem, List.take_append_drop]
    have hlen : (chain.take height).length = height := by rw [List.length_take]; omega
    rw [← htake] at hc
    have hheader := hc.of_append.header_eq
    have hb : idx.header_below (chain.take height).length = E.tip_header (chain.take height) := by
      apply header_below_eq
      intro j x hj
      have hlt := (List.getElem?_eq_some_iff.mp hj).1
      rw [List.getElem?_take_of_lt (by omega)] at hj
      exact h.below j x hj
    rw [hlen] at hheader hb
    rw [h.below height _ hx] at he
    obtain ⟨rfl, hr⟩ := Prod.mk.inj (Option.some.inj he)
    obtain ⟨rfl, rfl⟩ := Prod.mk.inj hr
    rw [hheader, hb]

theorem Follows.filled (h : Follows E Resumable chain idx) :
    E.Chain chain ∧ Filled E chain (fun _ => none) idx := by
  induction h with
  | opened hc hs hm =>
    obtain ⟨k, hm⟩ := hm
    exact ⟨hc, hm.filled (.inl rfl) hc hs⟩
  | connect h hc ih => exact ⟨hc, ih.2.append hc⟩
  | disconnect h ih => exact ⟨ih.1.of_append, ih.2.disconnect⟩
  | reopen h hc hs hm ih =>
    obtain ⟨k, hm⟩ := hm
    exact ⟨hc, hm.filled (.inr ih.2.log) hc hs⟩

theorem filter_index_follows_chain (h : Follows E Resumable chain idx) : FollowsChain chain idx :=
  h.filled.2.follows h.filled.1

end FilterIndex

section Sample

@[reducible] def sample_sums : Platform :=
  { Platform.sample with
    sha256d := fun bytes => BitVec.ofNat 256 (bytes.foldl (fun sum byte => sum + byte.toNat) 1) }

attribute [local instance] sample_sums

namespace FilterIndex

def sample_archive : Archive where
  block hash := ⟨sample_header (if hash = 1 then 0 else 1) hash.toNat 0,
    [⟨1, [⟨OutPoint.NULL, [1, 1], 0, []⟩], [⟨5, [UInt8.ofNat hash.toNat]⟩], hash.toNat⟩]⟩
  undo _ := ⟨[]⟩

def sample_body (hash : BlockHash) : Option Block := some (sample_archive.block hash)

theorem sample_stores (chain : List BlockHash) : sample_archive.Stores chain sample_body fun _ => none where
  body h := (Option.some.inj h).symm
  undo _ := rfl

theorem sample_limits (hash : BlockHash) : (sample_archive.block hash).WithinLimits where
  weight := Nat.le_of_ble_eq_true rfl
  checked tx hm := by
    rw [List.mem_singleton.mp hm]
    rfl

theorem sample_chain {child : BlockHash} (h : child = 2 ∨ child = 3) : sample_archive.Chain [1, child] where
  named hash _ := (BitVec.ofNat_toNat 256 hash).trans (BitVec.setWidth_eq hash)
  linked := by
    intro height hash hx
    match height with
    | 0 =>
      obtain rfl := Option.some.inj hx
      rcases h with rfl | rfl <;> rfl
    | height + 1 => simp at hx
  limits hash _ := sample_limits hash
  spent hash _ := Nat.zero_le _
  short := by simp

def sample_opened : FilterIndex := enable none [1] sample_body fun _ => none

def sample_connected : FilterIndex := sample_opened.append 1 (sample_archive.block 2) ⟨[]⟩

theorem sample_opened_resumes : Resumes none [1] sample_body 0 where
  within := by simp
  held height hash _ := by simp [open_log, empty]
  below_tip height h := by simp [open_log, empty] at h
  last := rfl
  bodies height hash _ _ := by simp [sample_body]

theorem sample_connected_resumes : Resumes sample_connected.log [1, 2] sample_body 2 where
  within := by simp
  held height hash hx := by
    match height with
    | 0 =>
      obtain rfl := Option.some.inj hx
      decide +kernel
    | 1 =>
      obtain rfl := Option.some.inj hx
      decide +kernel
    | height + 2 => simp at hx
  below_tip height h := by
    have hkeys : (open_log sample_connected.log).by_height.keys = [1, 0] := by decide +kernel
    have hm : height ∈ (open_log sample_connected.log).by_height.keys := by
      rw [← AList.mem_keys, ← AList.lookup_isSome]
      exact Option.isSome_iff_ne_none.mpr h
    rw [hkeys] at hm
    simp at hm ⊢
    omega
  last := by decide +kernel
  bodies height hash _ _ := by simp [sample_body]

theorem filter_index_follows_chain_sample :
    FollowsChain [1, 2] (enable sample_connected.log [1, 2] sample_body fun _ => none) := by
  have hc := sample_chain (.inl rfl)
  have ho : Follows sample_archive Resumable [1] sample_opened :=
    .opened hc.of_append (sample_stores [1]) ⟨0, sample_opened_resumes⟩
  exact filter_index_follows_chain ((ho.connect hc).reopen hc (sample_stores _) ⟨2, sample_connected_resumes⟩)

/-- A restart after the tip was disconnected, and one after it was replaced while the index was closed. -/
theorem filter_index_loses_chain :
    (∃ idx, Follows sample_archive (fun _ _ _ => True) [1] idx ∧ ¬ FollowsChain [1] idx) ∧
      ∃ idx, Follows sample_archive (fun _ _ _ => True) [1, 3] idx ∧ ¬ FollowsChain [1, 3] idx := by
  have hc := sample_chain (.inl rfl)
  have ho : Follows sample_archive (fun _ _ _ => True) [1] sample_opened :=
    .opened hc.of_append (sample_stores [1]) trivial
  have hn : Follows sample_archive (fun _ _ _ => True) [1, 2] sample_connected := ho.connect hc
  have hd := @Follows.disconnect _ _ _ [1] _ 2 hn
  refine ⟨⟨_, hd.reopen hc.of_append (sample_stores [1]) trivial, fun h => ?_⟩,
    ⟨_, hn.reopen (sample_chain (.inr rfl)) (sample_stores [1, 3]) trivial, fun h => ?_⟩⟩
  · exact absurd (h.above 1 (by decide)) (by decide +kernel)
  · let idx := enable sample_connected.log [1, 3] sample_body fun _ => none
    have hall : ((idx.by_height.lookup 1).all fun entry =>
        entry.2.2 == Gcs.compute_header (Gcs.filter_hash entry.2.1) (idx.header_below 1)) = true := by
      cases he : idx.by_height.lookup 1 with
      | none => rfl
      | some entry =>
        rw [Option.all_some, beq_iff_eq]
        exact h.header 1 entry.1 entry.2.1 entry.2.2 he
    exact absurd hall (by decide +kernel)

end FilterIndex

end Sample

end AvilaNode
