import AvilaNode.BlockFrames

/-! Runs of the block files: appends that may fail, pruning, and opening again. -/

namespace AvilaNode.BlockFiles

open Layers

structure Session where
  dir : Dir
  store : BlockStore
  returned : List (Block × BlockPos)

inductive Event where
  | append (block : Block) (device : Device)
  | prune (keep floor : ℕ)
  | reopen

section

variable [Platform]

namespace Session

def fresh (magic : Vector UInt8 4) (max_file_size : ℕ) : Session :=
  ⟨[(0, [])], ⟨magic, ∅, 0, 0, 0, max_file_size, none⟩, []⟩

variable (magic : Vector UInt8 4) (store : BlockStore) {device : Device}

variable (max_file_size : ℕ)

theorem open_fresh :
    open_with_limit [] magic max_file_size =
      .ok ((fresh magic max_file_size).dir, (fresh magic max_file_size).store) := rfl

def step (s : Session) : Event → Except IoError Session
  | .append block device =>
    let r := s.store.append s.dir block device
    .ok ⟨r.2.1, r.2.2, s.returned ++ (r.1.toOption.map fun pos => (block, pos)).toList⟩
  | .prune keep floor =>
    let r := s.store.prune_to_bytes s.dir keep floor
    .ok ⟨r.2.1, r.2.2, s.returned.filter fun e => !r.2.2.is_pruned e.2⟩
  | .reopen => (open_with_limit s.dir s.store.magic s.store.max_file_size).map fun r => ⟨r.1, r.2, s.returned⟩

def run : Session → List Event → Except IoError Session
  | s, [] => .ok s
  | s, e :: events => (s.step e).bind fun s => s.run events

def Stored (s : Session) (block : Block) : Prop :=
  ∃ pos, s.store.index.lookup (Platform.block_hash block.header) = some pos ∧ s.store.is_pruned pos = false

omit [Platform] in
def Clean (s : Session) : Prop :=
  s.store.tail = s.store.tail_no ∧ ∀ bytes, s.dir.get s.store.tail = some bytes → bytes.length = s.store.tail_len

def Fits (s : Session) : Event → Prop
  | .append block _ =>
    (∀ r ∈ s.returned, Platform.block_hash r.1.header = Platform.block_hash block.header → r.1 = block) ∧
      (s.Stored block ∨ Storable block ∧ s.Clean)
  | _ => True

def AllFit : Session → List Event → Prop
  | _, [] => True
  | s, e :: events => s.Fits e ∧ ∀ s', s.step e = .ok s' → s'.AllFit events

/-- What the files hold: whole files from `first` on, and a last one that may end in the beginning of a frame. -/
structure Sound (s : Session) (first : ℕ) (older : List (List Block)) (last : List Block) (torn : List UInt8) :
    Prop where
  dir : s.dir = layout s.store.magic first older last torn
  torn : torn = [] ∨ ∃ block, Storable block ∧ torn <+: frame s.store.magic block ∧
    torn.length < (frame s.store.magic block).length
  storable : ∀ blocks ∈ older ++ [last], ∀ b ∈ blocks, Storable b
  tail : s.store.tail = first + older.length
  behind : s.store.tail ≤ s.store.tail_no
  counted : s.store.tail_no = s.store.tail → s.store.tail_len = (last.flatMap (frame s.store.magic)).length
  pruned : s.store.pruned_through = if first = 0 then none else some (first - 1)
  index : ∀ hash pos, s.store.index.lookup hash = some pos → pos.file < first ∨
    ∃ b, (b, pos) ∈ all_entries first (older ++ [last]) ∧ Platform.block_hash b.header = hash
  indexed : ∀ e ∈ all_entries first (older ++ [last]),
    s.store.index.lookup (Platform.block_hash e.1.header) = some e.2
  returned : ∀ r, r ∈ s.returned ↔ r ∈ all_entries first (older ++ [last])
  distinct : ∀ r ∈ s.returned, ∀ r' ∈ s.returned,
    Platform.block_hash r.1.header = Platform.block_hash r'.1.header → r.1 = r'.1

structure Gone (s : Session) : Prop where
  dir : s.dir = []
  tail : s.store.tail ≠ s.store.tail_no
  pruned : ∀ hash pos, s.store.index.lookup hash = some pos → s.store.is_pruned pos = true
  returned : s.returned = []

variable {s : Session} {first : ℕ} {older : List (List Block)} {last : List Block} {torn : List UInt8}

theorem fresh_sound : (fresh magic max_file_size).Sound 0 [] [] [] where
  dir := rfl
  torn := .inl rfl
  storable := by simp
  tail := rfl
  behind := le_refl 0
  counted _ := rfl
  pruned := rfl
  index := by simp [fresh]
  indexed := by simp [all_entries, entries]
  returned := by simp [fresh, all_entries, entries]
  distinct := by simp [fresh]

omit [Platform] in
theorem is_pruned_before {store : BlockStore}
    (h : store.pruned_through = if first = 0 then none else some (first - 1))
    (pos : BlockPos) : store.is_pruned pos = true ↔ pos.file < first := by
  rw [BlockStore.is_pruned, h]
  split_ifs with h0
  · simp [h0]
  · simp only [decide_eq_true_eq]
    omega

theorem Sound.is_pruned_iff (h : s.Sound first older last torn) (pos : BlockPos) :
    s.store.is_pruned pos = true ↔ pos.file < first := is_pruned_before h.pruned pos

theorem Sound.read (h : s.Sound first older last torn) {e : Block × BlockPos}
    (he : e ∈ all_entries first (older ++ [last])) : s.store.read s.dir e.2 = .ok e.1 := by
  have hfile := (all_entries_file he).1
  have hp : s.store.is_pruned e.2 = false := by
    rw [← Bool.not_eq_true, h.is_pruned_iff]
    omega
  rw [BlockStore.read, hp, h.dir]
  exact read_layout h.storable he

variable {block : Block}

theorem Sound.stored_entry (h : s.Sound first older last torn) {pos : BlockPos}
    (hclash : ∀ r ∈ s.returned, Platform.block_hash r.1.header = Platform.block_hash block.header → r.1 = block)
    (hpos : s.store.index.lookup (Platform.block_hash block.header) = some pos) (hp : s.store.is_pruned pos = false) :
    (block, pos) ∈ all_entries first (older ++ [last]) := by
  rcases h.index _ _ hpos with hlt | ⟨b, he, hb⟩
  · rw [(h.is_pruned_iff pos).mpr hlt] at hp
    cases hp
  · obtain rfl := hclash _ ((h.returned _).mpr he) hb
    exact he

omit [Platform] in
theorem append_stored [Platform] {pos : BlockPos} (device : Device)
    (hpos : s.store.index.lookup (Platform.block_hash block.header) = some pos) (hp : s.store.is_pruned pos = false) :
    s.store.append s.dir block device = (.ok pos, s.dir, s.store) := by
  rw [BlockStore.append, hpos, Option.filter_some, hp]
  rfl

theorem Sound.entry_unique (h : s.Sound first older last torn) {e e' : Block × BlockPos}
    (he : e ∈ all_entries first (older ++ [last])) (he' : e' ∈ all_entries first (older ++ [last]))
    (hhash : Platform.block_hash e.1.header = Platform.block_hash e'.1.header) : e = e' := by
  have hpos := h.indexed e he
  rw [hhash, h.indexed e' he'] at hpos
  exact Prod.ext (h.distinct e ((h.returned e).mpr he) e' ((h.returned e').mpr he') hhash) (Option.some.inj hpos).symm

theorem Sound.reopen (h : s.Sound first older last torn) :
    ∃ s', s.step .reopen = .ok s' ∧ s'.Sound first older last [] ∧ s'.returned = s.returned := by
  have hopen := @open_layout s.store.magic first _ _ _ _ h.storable h.torn s.store.max_file_size
  rw [← h.dir] at hopen
  have hstep := congrArg (Except.map fun r : Dir × BlockStore => Session.mk r.1 r.2 s.returned) hopen
  refine ⟨_, hstep, ⟨rfl, .inl rfl, h.storable, rfl, le_refl _, fun _ => rfl, rfl, ?_, ?_, h.returned,
    h.distinct⟩, rfl⟩
  · intro hash pos hpos
    exact .inr (index_of_lookup hpos)
  · intro e he
    obtain ⟨e', he', hhash, hlookup⟩ := index_of_mem ∅ he
    rw [hlookup, h.entry_unique he' he hhash]

omit [Platform] in
theorem prune_files_layout {magic : Vector UInt8 4} (tail_no floor keep : ℕ) {first : ℕ} {older : List (List Block)}
    {last : List Block} {torn : List UInt8} (htail : first + older.length ≤ tail_no) (total : ℕ)
    (pruned_through : Option ℕ) (deleted : ℕ) :
    let r := BlockStore.prune_files tail_no floor keep
      ((layout magic first older last torn).map fun file => (file.1, file.2.length)) total
      (layout magic first older last torn, pruned_through, deleted)
    (∃ front back, older = front ++ back ∧ r.1 = layout magic (first + front.length) back last torn ∧
      r.2.1 = if front.length = 0 then pruned_through else some (first + front.length - 1)) ∨
    (r.1 = [] ∧ r.2.1 = some (first + older.length) ∧ first + older.length ≠ tail_no) := by
  induction older generalizing first total pruned_through deleted with
  | nil =>
    intro r
    by_cases hstop : tail_no ≤ first ∨ floor ≤ first ∨ total ≤ keep
    · refine .inl ⟨[], [], rfl, ?_⟩
      have hr : r = (layout magic first [] last torn, pruned_through, deleted) := by
        change BlockStore.prune_files tail_no floor keep _ total _ = _
        rw [layout_nil, List.map_singleton, BlockStore.prune_files, if_pos hstop]
      rw [hr]
      exact ⟨rfl, rfl⟩
    · have hr : r = ([], some first, deleted + 1) := by
        change BlockStore.prune_files tail_no floor keep _ total _ = _
        rw [layout_nil, List.map_singleton, BlockStore.prune_files, if_neg hstop, BlockStore.prune_files, Dir.remove,
          List.filter_cons_of_neg (by simp), List.filter_nil]
      rw [hr]
      exact .inr ⟨rfl, rfl, fun heq => hstop (.inl heq.ge)⟩
  | cons blocks older ih =>
    intro r
    rw [List.length_cons] at htail ⊢
    by_cases hstop : tail_no ≤ first ∨ floor ≤ first ∨ total ≤ keep
    · refine .inl ⟨[], blocks :: older, rfl, ?_⟩
      have hr : r = (layout magic first (blocks :: older) last torn, pruned_through, deleted) := by
        change BlockStore.prune_files tail_no floor keep _ total _ = _
        rw [layout_cons, List.map_cons, BlockStore.prune_files, if_pos hstop]
      rw [hr]
      exact ⟨rfl, rfl⟩
    · have hr : r = BlockStore.prune_files tail_no floor keep
          ((layout magic (first + 1) older last torn).map fun file => (file.1, file.2.length))
          (total - (blocks.flatMap (frame magic)).length)
          (layout magic (first + 1) older last torn, some first, deleted + 1) := by
        change BlockStore.prune_files tail_no floor keep _ total _ = _
        conv_lhs => rw [layout_cons, List.map_cons, BlockStore.prune_files]
        rw [if_neg hstop, ← layout_cons, remove_layout]
      rw [hr]
      rcases @ih (first + 1) (by omega) (total - (blocks.flatMap (frame magic)).length) (some first)
        (deleted + 1) with ⟨front, back, rfl, hdir, hpruned⟩ | ⟨hdir, hpruned, hne⟩
      · refine .inl ⟨blocks :: front, back, rfl, ?_⟩
        rw [hdir, hpruned, List.length_cons, if_neg (Nat.succ_ne_zero _)]
        refine ⟨by congr 1; omega, ?_⟩
        split_ifs with h0
        · rw [h0]
          rfl
        · congr 1
          omega
      · refine .inr ⟨hdir, hpruned.trans ?_, by omega⟩
        congr 1
        omega

theorem Sound.prune (h : s.Sound first older last torn) (keep floor : ℕ) :
    ∃ s', s.step (.prune keep floor) = .ok s' ∧ ((∃ first' older', s'.Sound first' older' last torn) ∨ s'.Gone) := by
  have hprune := @prune_files_layout s.store.magic s.store.tail_no floor keep first older last torn
    (h.tail.symm.trans_le h.behind)
    (((s.dir.map fun file => (file.1, file.2.length)).map Prod.snd).foldl (· + ·) 0) s.store.pruned_through 0
  rw [← h.dir] at hprune
  refine ⟨_, rfl, ?_⟩
  rcases hprune with ⟨front, back, rfl, hdir, hpruned⟩ | ⟨hdir, hpruned, hne⟩
  · have hthrough : (if front.length = 0 then s.store.pruned_through else some (first + front.length - 1)) =
        if first + front.length = 0 then none else some (first + front.length - 1) := by
      rw [h.pruned]
      rcases Nat.eq_zero_or_pos front.length with h0 | h0
      · rw [if_pos h0, h0, Nat.add_zero]
      · rw [if_neg h0.ne', if_neg (by omega)]
    have hsplit : ∀ e, e ∈ all_entries first (front ++ back ++ [last]) →
        e.2.file < first + front.length ∨ e ∈ all_entries (first + front.length) (back ++ [last]) := by
      intro e he
      rw [List.append_assoc, all_entries_append] at he
      exact (List.mem_append.mp he).imp_left fun he => (all_entries_file he).2
    have hsub : ∀ e, e ∈ all_entries (first + front.length) (back ++ [last]) →
        e ∈ all_entries first (front ++ back ++ [last]) := by
      intro e he
      rw [List.append_assoc, all_entries_append]
      exact List.mem_append_right _ he
    refine .inl ⟨first + front.length, back,
      ⟨hdir, h.torn, ?_, ?_, h.behind, h.counted, hpruned.trans hthrough, ?_, ?_, ?_, ?_⟩⟩
    · exact fun blocks hb => h.storable blocks (by rw [List.append_assoc]; exact List.mem_append_right _ hb)
    · exact h.tail.trans (by rw [List.length_append, Nat.add_assoc])
    · intro hash pos hpos
      rcases h.index hash pos hpos with hlt | ⟨b, hb, hhash⟩
      · exact .inl (by omega)
      · exact (hsplit _ hb).imp_right fun hb => ⟨b, hb, hhash⟩
    · exact fun e he => h.indexed e (hsub e he)
    · intro r
      have hkept := @is_pruned_before _ (s.store.prune_to_bytes s.dir keep floor).2.2 (hpruned.trans hthrough) r.2
      rw [List.mem_filter, Bool.not_eq_true', ← Bool.not_eq_true, hkept, h.returned]
      refine ⟨fun hr => (hsplit r hr.1).resolve_left hr.2, fun hr => ⟨hsub r hr, ?_⟩⟩
      have hfile := (all_entries_file hr).1
      omega
    · exact fun r hr r' hr' => h.distinct r (List.mem_of_mem_filter hr) r' (List.mem_of_mem_filter hr')
  · have hall := @is_pruned_before (first + older.length + 1) (s.store.prune_to_bytes s.dir keep floor).2.2 hpruned
    have hentry : ∀ e, e ∈ all_entries first (older ++ [last]) → e.2.file < first + older.length + 1 := by
      intro e he
      have hfile := (all_entries_file he).2
      rw [List.length_append, List.length_singleton] at hfile
      omega
    refine .inr ⟨hdir, fun heq => hne (h.tail.symm.trans heq), ?_, ?_⟩
    · intro hash pos hpos
      rcases h.index hash pos hpos with hlt | ⟨b, hb, -⟩
      · exact (hall pos).mpr (by omega)
      · exact (hall pos).mpr (hentry _ hb)
    · rw [List.filter_eq_nil_iff]
      intro r hr
      rw [(hall r.2).mpr (hentry r ((h.returned r).mp hr))]
      exact Bool.false_ne_true

omit [Platform] in
theorem write_frame_torn [Platform] (dir : Dir) (block : Block) (written : ℕ) :
    store.write_frame dir block (.torn written) = (.error .Device, dir.append store.tail
      ((frame store.magic block).take (min written ((frame store.magic block).length - 1))), store) := rfl

omit [Platform] in
theorem write_frame_whole [Platform] (dir : Dir) (hs : Storable block) (hdevice : ∀ written, device ≠ .torn written) :
    store.write_frame dir block device =
      (.ok ⟨store.tail_no, store.tail_len + FRAME_HEADER, block.encode.length⟩,
        dir.append store.tail (frame store.magic block),
        { store with
          tail_len := store.tail_len + (FRAME_HEADER + block.encode.length)
          index := store.index.insert (Platform.block_hash block.header)
            ⟨store.tail_no, store.tail_len + FRAME_HEADER, block.encode.length⟩ }) := by
  have hsize : block.encode.length % 2 ^ 32 = block.encode.length := Nat.mod_eq_of_lt (hs.size.trans_lt (by decide))
  cases device with
  | torn written => exact absurd rfl (hdevice written)
  | done => simp only [BlockStore.write_frame, hsize]
  | no_file => simp only [BlockStore.write_frame, hsize]

theorem Sound.write_torn (h : s.Sound first older last []) (hs : Storable block) (written : ℕ) :
    ∃ torn', Sound ⟨s.dir.append s.store.tail
      ((frame s.store.magic block).take (min written ((frame s.store.magic block).length - 1))), s.store, s.returned⟩
      first older last torn' := by
  have hlt : ((frame s.store.magic block).take (min written ((frame s.store.magic block).length - 1))).length <
      (frame s.store.magic block).length := by
    have hpos := length_frame s.store.magic block
    rw [FRAME_HEADER] at hpos
    rw [List.length_take]
    omega
  refine ⟨_, ?_, .inr ⟨block, hs, List.take_prefix _ _, hlt⟩, h.storable, h.tail, h.behind, h.counted, h.pruned,
    h.index,
    h.indexed, h.returned, h.distinct⟩
  rw [h.dir, h.tail, append_layout]

theorem Sound.write_whole (h : s.Sound first older last []) (hs : Storable block)
    (hno : s.store.tail_no = s.store.tail)
    (hmiss : ∀ e ∈ all_entries first (older ++ [last]),
      Platform.block_hash e.1.header ≠ Platform.block_hash block.header)
    (hclash : ∀ r ∈ s.returned, Platform.block_hash r.1.header = Platform.block_hash block.header → r.1 = block) :
    Sound ⟨s.dir.append s.store.tail (frame s.store.magic block),
      { s.store with
        tail_len := s.store.tail_len + (FRAME_HEADER + block.encode.length)
        index := s.store.index.insert (Platform.block_hash block.header)
          ⟨s.store.tail_no, s.store.tail_len + FRAME_HEADER, block.encode.length⟩ },
      s.returned ++ [(block, ⟨s.store.tail_no, s.store.tail_len + FRAME_HEADER, block.encode.length⟩)]⟩
      first older (last ++ [block]) [] := by
  have hentries : all_entries first (older ++ [last ++ [block]]) = all_entries first (older ++ [last]) ++
      [(block, ⟨s.store.tail_no, s.store.tail_len + FRAME_HEADER, block.encode.length⟩)] := by
    simp only [all_entries_append, all_entries, List.append_nil]
    rw [@entries_append s.store.magic, Nat.zero_add, ← h.counted hno, ← h.tail, ← hno, List.append_assoc]
    rfl
  have hmem : ∀ e, e ∈ all_entries first (older ++ [last ++ [block]]) → e ∈ all_entries first (older ++ [last]) ∨
      e = (block, ⟨s.store.tail_no, s.store.tail_len + FRAME_HEADER, block.encode.length⟩) := by
    intro e he
    rw [hentries] at he
    simpa using he
  have hold : ∀ e, e ∈ all_entries first (older ++ [last]) → e ∈ all_entries first (older ++ [last ++ [block]]) := by
    intro e he
    rw [hentries]
    exact List.mem_append_left _ he
  have hnew : (block, ⟨s.store.tail_no, s.store.tail_len + FRAME_HEADER, block.encode.length⟩) ∈
      all_entries first (older ++ [last ++ [block]]) := by
    rw [hentries]
    exact List.mem_append_right _ (List.mem_singleton_self _)
  refine ⟨?_, .inl rfl, ?_, h.tail, h.behind, ?_, h.pruned, ?_, ?_, ?_, ?_⟩
  · change s.dir.append s.store.tail _ = _
    rw [h.dir, h.tail, append_layout, layout_frame]
  · intro blocks hblocks b hb
    rcases List.mem_append.mp hblocks with hblocks | hblocks
    · exact h.storable blocks (List.mem_append_left _ hblocks) b hb
    rw [List.mem_singleton] at hblocks
    subst hblocks
    rcases List.mem_append.mp hb with hb | hb
    · exact h.storable last (by simp) b hb
    · rw [List.mem_singleton.mp hb]
      exact hs
  · intro _
    change s.store.tail_len + (FRAME_HEADER + block.encode.length) =
      ((last ++ [block]).flatMap (frame s.store.magic)).length
    rw [h.counted hno, List.flatMap_append, List.length_append, List.flatMap_singleton, length_frame]
  · intro hash pos hpos
    rw [lookup_insert_eq] at hpos
    split_ifs at hpos with heq
    · cases hpos
      exact .inr ⟨block, hnew, heq.symm⟩
    · apply (h.index hash pos hpos).imp_right
      rintro ⟨b, hb, hhash⟩
      exact ⟨b, hold _ hb, hhash⟩
  · intro e he
    rw [lookup_insert_eq]
    rcases hmem e he with he | rfl
    · rw [if_neg (hmiss e he), h.indexed e he]
    · rw [if_pos rfl]
  · intro r
    rw [hentries]
    exact List.mem_append.trans ((or_congr_left (h.returned r)).trans List.mem_append.symm)
  · intro r hr r' hr' hhash
    rcases List.mem_append.mp hr with hr | hr <;> rcases List.mem_append.mp hr' with hr' | hr'
    · exact h.distinct r hr r' hr' hhash
    · rw [List.mem_singleton.mp hr'] at hhash ⊢
      exact hclash r hr hhash
    · rw [List.mem_singleton.mp hr] at hhash ⊢
      exact (hclash r' hr' hhash.symm).symm
    · rw [List.mem_singleton.mp hr, List.mem_singleton.mp hr']

theorem Sound.rotate (h : s.Sound first older last []) (hno : s.store.tail_no = s.store.tail) :
    Sound ⟨s.dir.create (s.store.tail_no + 1),
      { s.store with tail_no := s.store.tail_no + 1, tail_len := 0, tail := s.store.tail_no + 1 }, s.returned⟩
      first (older ++ [last]) [] [] := by
  have hentries : all_entries first (older ++ [last] ++ [[]]) = all_entries first (older ++ [last]) := by
    rw [all_entries_append]
    exact List.append_nil _
  refine ⟨?_, .inl rfl, ?_, ?_, le_refl _, fun _ => rfl, h.pruned, ?_, ?_, ?_, h.distinct⟩
  · change s.dir.create (s.store.tail_no + 1) = _
    rw [h.dir, hno, h.tail, create_layout]
  · intro blocks hblocks b hb
    rcases List.mem_append.mp hblocks with hblocks | hblocks
    · exact h.storable blocks hblocks b hb
    · rw [List.mem_singleton.mp hblocks] at hb
      cases hb
  · change s.store.tail_no + 1 = _
    rw [hno, h.tail, List.length_append, List.length_singleton, Nat.add_assoc]
  · rw [hentries]
    exact h.index
  · rw [hentries]
    exact h.indexed
  · rw [hentries]
    exact h.returned

theorem Sound.rotate_failed (h : s.Sound first older last torn) (hno : s.store.tail_no = s.store.tail) :
    Sound ⟨s.dir, { s.store with tail_no := s.store.tail_no + 1, tail_len := 0 }, s.returned⟩ first older last torn :=
  ⟨h.dir, h.torn, h.storable, h.tail, hno.ge.trans (Nat.le_succ _),
    fun heq => absurd (heq.trans hno.symm) (Nat.succ_ne_self _), h.pruned, h.index, h.indexed, h.returned, h.distinct⟩

theorem Sound.whole (h : s.Sound first older last torn) (hclean : s.Clean) : torn = [] := by
  have hlen := hclean.2 (last.flatMap (frame s.store.magic) ++ torn) (by rw [h.dir, h.tail, get_layout_last])
  rw [h.counted hclean.1.symm, List.length_append] at hlen
  exact List.eq_nil_of_length_eq_zero (by omega)

def written (returned : List (Block × BlockPos)) (block : Block) (r : Except IoError BlockPos × Dir × BlockStore) :
    Session :=
  ⟨r.2.1, r.2.2, returned ++ (r.1.toOption.map fun pos => (block, pos)).toList⟩

theorem Sound.write_frame (h : s.Sound first older last []) (hs : Storable block)
    (hno : s.store.tail_no = s.store.tail)
    (hmiss : ∀ e ∈ all_entries first (older ++ [last]),
      Platform.block_hash e.1.header ≠ Platform.block_hash block.header)
    (hclash : ∀ r ∈ s.returned, Platform.block_hash r.1.header = Platform.block_hash block.header → r.1 = block)
    (device : Device) : ∃ last' torn',
      (written s.returned block (s.store.write_frame s.dir block device)).Sound first older last' torn' := by
  by_cases htorn : ∃ n, device = .torn n
  · obtain ⟨n, rfl⟩ := htorn
    obtain ⟨torn', ht⟩ := h.write_torn hs n
    refine ⟨last, torn', ?_⟩
    rw [write_frame_torn, written]
    exact (List.append_nil s.returned).symm ▸ ht
  · refine ⟨last ++ [block], [], ?_⟩
    rw [write_frame_whole _ _ hs fun n hn => htorn ⟨n, hn⟩, written]
    exact h.write_whole hs hno hmiss hclash

theorem Sound.append (h : s.Sound first older last torn) (hfits : s.Fits (.append block device)) :
    ∃ older' last' torn',
      (written s.returned block (s.store.append s.dir block device)).Sound first older' last' torn' := by
  obtain ⟨hclash, hfits⟩ := hfits
  by_cases hstored : s.Stored block
  · obtain ⟨pos, hpos, hp⟩ := hstored
    refine ⟨older, last, torn, ?_⟩
    have he := h.stored_entry hclash hpos hp
    rw [append_stored device hpos hp, written]
    have hsame : ∀ r, r ∈ s.returned ++ [(block, pos)] ↔ r ∈ s.returned := by
      intro r
      rw [List.mem_append, List.mem_singleton, or_iff_left_iff_imp]
      rintro rfl
      exact (h.returned _).mpr he
    exact ⟨h.dir, h.torn, h.storable, h.tail, h.behind, h.counted, h.pruned, h.index, h.indexed,
      fun r => (hsame r).trans (h.returned r),
      fun r hr r' hr' => h.distinct r ((hsame r).mp hr) r' ((hsame r').mp hr')⟩
  · obtain ⟨hs, hclean⟩ := hfits.resolve_left hstored
    obtain rfl := h.whole hclean
    have hmiss : ∀ e ∈ all_entries first (older ++ [last]),
        Platform.block_hash e.1.header ≠ Platform.block_hash block.header := by
      intro e he hhash
      have hfile := (all_entries_file he).1
      refine hstored ⟨e.2, hhash ▸ h.indexed e he, ?_⟩
      rw [← Bool.not_eq_true, h.is_pruned_iff]
      omega
    have hlookup : (s.store.index.lookup (Platform.block_hash block.header)).filter
      (fun pos => !s.store.is_pruned pos) =
        none := by
      rw [Option.filter_eq_none_iff]
      intro pos hpos hp
      exact hstored ⟨pos, hpos, by simpa using hp⟩
    rw [BlockStore.append, hlookup]
    dsimp only
    split_ifs with hfull hdevice
    · refine ⟨older, last, [], ?_⟩
      rw [written]
      exact (List.append_nil s.returned).symm ▸ h.rotate_failed hclean.1.symm
    · obtain ⟨last', torn', hwritten⟩ := (h.rotate hclean.1.symm).write_frame hs rfl (by
        rw [all_entries_append]
        exact fun e he => hmiss e (by simpa [all_entries, entries] using he)) hclash device
      exact ⟨older ++ [last], last', torn', hwritten⟩
    · obtain ⟨last', torn', hwritten⟩ := h.write_frame hs hclean.1.symm hmiss hclash device
      exact ⟨older, last', torn', hwritten⟩

def Kept (s : Session) : Prop := (∃ first older last torn, s.Sound first older last torn) ∨ s.Gone

theorem Gone.reopen (h : s.Gone) : ∃ s', s.step .reopen = .ok s' ∧ s'.Sound 0 [] [] [] ∧ s'.returned = [] := by
  refine ⟨fresh s.store.magic s.store.max_file_size, ?_, fresh_sound _ _, rfl⟩
  rw [Session.step, h.dir, open_fresh, h.returned]
  rfl

theorem Gone.step (h : s.Gone) {e : Event} (hfits : s.Fits e) : ∃ s', s.step e = .ok s' ∧ s'.Kept := by
  cases e with
  | append block device =>
    rcases hfits.2 with ⟨pos, hpos, hp⟩ | ⟨-, hclean⟩
    · rw [h.pruned _ _ hpos] at hp
      cases hp
    · exact absurd hclean.1 h.tail
  | prune keep floor =>
    have hprune : s.store.prune_to_bytes s.dir keep floor = (0, s.dir, s.store) := by
      rw [BlockStore.prune_to_bytes, h.dir]
      rfl
    refine ⟨_, rfl, .inr ?_⟩
    rw [hprune, h.returned]
    exact ⟨h.dir, h.tail, h.pruned, rfl⟩
  | reopen =>
    obtain ⟨s', hstep, h', -⟩ := h.reopen
    exact ⟨s', hstep, .inl ⟨0, [], [], [], h'⟩⟩

theorem Kept.step (h : s.Kept) {e : Event} (hfits : s.Fits e) : ∃ s', s.step e = .ok s' ∧ s'.Kept := by
  rcases h with ⟨first, older, last, torn, h⟩ | h
  · cases e with
    | append block device =>
      obtain ⟨older', last', torn', h'⟩ := h.append hfits
      exact ⟨_, rfl, .inl ⟨first, older', last', torn', h'⟩⟩
    | prune keep floor =>
      obtain ⟨s', hstep, h'⟩ := h.prune keep floor
      exact ⟨s', hstep, h'.imp_left fun ⟨first', older', h'⟩ => ⟨first', older', last, torn, h'⟩⟩
    | reopen =>
      obtain ⟨s', hstep, h', -⟩ := h.reopen
      exact ⟨s', hstep, .inl ⟨first, older, last, [], h'⟩⟩
  · exact h.step hfits

theorem Kept.run (h : s.Kept) {events : List Event} (hfits : s.AllFit events) : ∃ s', s.run events = .ok s' ∧
    s'.Kept := by
  induction events generalizing s with
  | nil => exact ⟨s, rfl, h⟩
  | cons e events ih =>
    obtain ⟨s', hstep, h'⟩ := h.step hfits.1
    obtain ⟨s'', hrun⟩ := ih h' (hfits.2 s' hstep)
    refine ⟨s'', ?_⟩
    rwa [Session.run, hstep]

structure Finds (s : Session) (r : Block × BlockPos) : Prop where
  read : s.store.read s.dir r.2 = .ok r.1
  indexed : s.store.index.lookup (Platform.block_hash r.1.header) = some r.2
  idle : ∀ device, s.store.append s.dir r.1 device = (.ok r.2, s.dir, s.store)

theorem Sound.finds (h : s.Sound first older last torn) {r : Block × BlockPos} (hr : r ∈ s.returned) : s.Finds r := by
  have he := (h.returned r).mp hr
  have hfile := (all_entries_file he).1
  have hp : s.store.is_pruned r.2 = false := by
    rw [← Bool.not_eq_true, h.is_pruned_iff]
    omega
  exact ⟨h.read he, h.indexed r he, fun device => append_stored device (h.indexed r he) hp⟩

theorem Kept.finds (h : s.Kept) : (∀ r ∈ s.returned, s.Finds r) ∧
    ∃ s', s.step .reopen = .ok s' ∧ s'.returned = s.returned ∧ ∀ r ∈ s.returned, s'.Finds r := by
  rcases h with ⟨first, older, last, torn, h⟩ | h
  · obtain ⟨s', hstep, h', hreturned⟩ := h.reopen
    exact ⟨fun r hr => h.finds hr, s', hstep, hreturned, fun r hr => h'.finds (hreturned ▸ hr)⟩
  · obtain ⟨s', hstep, -, hreturned⟩ := h.reopen
    rw [h.returned]
    exact ⟨List.forall_mem_nil _, s', hstep, hreturned, List.forall_mem_nil _⟩

/-- Whatever is appended, pruned and opened again, the blocks are where the store said, as long as it appends to
the file it counts. -/
theorem block_files_exact {magic : Vector UInt8 4} {max_file_size : ℕ} {events : List Event}
    (hfit : (fresh magic max_file_size).AllFit events) : ∃ s, (fresh magic max_file_size).run events = .ok s ∧
      (∀ r ∈ s.returned, s.Finds r) ∧
      ∃ s', s.step .reopen = .ok s' ∧ s'.returned = s.returned ∧ ∀ r ∈ s.returned, s'.Finds r := by
  obtain ⟨s, hrun, h⟩ := Kept.run (.inl ⟨0, [], [], [], fresh_sound magic max_file_size⟩) hfit
  exact ⟨s, hrun, h.finds⟩

end Session

end

section

attribute [local instance] Platform.sample

namespace Session

def sample_magic : Vector UInt8 4 := #v[0xf9, 0xbe, 0xb4, 0xd9]

def sample_empty (nonce : ℕ) : Block := ⟨sample_header 0 0 nonce, []⟩

theorem sample_storable : Storable (sample_empty 1) where
  codec := by
    refine ⟨?_, by decide, by simp [sample_empty]⟩
    constructor <;> simp [sample_empty, sample_header]
  size := by decide

def sample_events : List Event :=
  [.append (sample_empty 1) (.torn 5), .reopen, .append (sample_empty 1) .done, .append (sample_empty 1) .done]

theorem sample_fit : (fresh sample_magic 1000).AllFit sample_events := by
  refine ⟨⟨by simp [fresh], .inr ⟨sample_storable, rfl, ?_⟩⟩, fun s hs => ?_⟩
  · intro bytes h
    cases h
    rfl
  · cases hs
    refine ⟨trivial, fun s hs => ?_⟩
    cases hs
    refine ⟨⟨?_, .inr ⟨sample_storable, rfl, ?_⟩⟩, fun s hs => ?_⟩
    · intro r hr
      cases hr
    · intro bytes h
      cases h
      rfl
    · cases hs
      refine ⟨⟨?_, .inl ⟨⟨0, 8, 81⟩, rfl, rfl⟩⟩, fun _ _ => trivial⟩
      intro r hr _
      rw [List.mem_singleton.mp hr]

theorem block_files_exact_sample : ∃ s, (fresh sample_magic 1000).run sample_events = .ok s ∧
    (∀ r ∈ s.returned, s.Finds r) ∧
    ∃ s', s.step .reopen = .ok s' ∧ s'.returned = s.returned ∧ ∀ r ∈ s.returned, s'.Finds r :=
  block_files_exact sample_fit

theorem append_after_torn : ¬∀ events : List Event, ∃ s, (fresh sample_magic 1000).run events = .ok s ∧
    ∀ r ∈ s.returned, s.store.read s.dir r.2 = .ok r.1 := by
  intro hreads
  obtain ⟨s, hrun, hread⟩ := hreads [.append (sample_empty 1) (.torn 5), .append (sample_empty 2) .done]
  cases hrun
  have h := hread (sample_empty 2, ⟨0, 8, 81⟩) (List.mem_singleton_self _)
  cases h

end Session

end

end AvilaNode.BlockFiles
