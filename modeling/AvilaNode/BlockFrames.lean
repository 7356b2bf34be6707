import AvilaNode.BlockFiles

/-! Frames read back from the files they were appended to. -/

namespace AvilaNode.BlockFiles

open ByteReader ByteStrings Layers

structure Storable (block : Block) : Prop where
  codec : block.CodecValid
  size : block.encode.length ≤ MAX_BLOCK_SERIALIZED_SIZE

variable {magic : Vector UInt8 4} {block : Block}

theorem decode_encode (h : Storable block) : decode block.encode = some block := by
  rw [decode, if_neg (Nat.not_lt.mpr h.size), (Block.read_reads h.codec).whole]

theorem encode_pos (block : Block) : 0 < block.encode.length := by
  rw [Block.encode, BlockHeader.encode]
  simp only [List.length_append, length_le]
  omega

@[simp] theorem length_frame (magic : Vector UInt8 4) (block : Block) :
    (frame magic block).length = FRAME_HEADER + block.encode.length := by
  rw [frame, List.length_append, List.length_append, length_le, Vector.length_toList, FRAME_HEADER]

theorem frame_parts (magic : Vector UInt8 4) (block : Block) (rest : List UInt8) :
    (frame magic block ++ rest).take 4 = magic.toList ∧
    ((frame magic block ++ rest).drop 4).take 4 = le 4 block.encode.length ∧
    ((frame magic block ++ rest).drop FRAME_HEADER) = block.encode ++ rest := by
  have hm : magic.toList.length = 4 := Vector.length_toList
  refine ⟨?_, ?_, ?_⟩
  · rw [frame, List.append_assoc, List.append_assoc, List.take_left' hm]
  · rw [frame, List.append_assoc, List.append_assoc, List.drop_left' hm, List.take_left' (length_le 4 _)]
  · rw [frame, List.append_assoc, List.drop_left' (by rw [List.length_append, hm, length_le, FRAME_HEADER])]

theorem value_len (h : Storable block) : value (le 4 block.encode.length) = block.encode.length :=
  value_le (h.size.trans_lt (by decide))

theorem read_frame_frame (h : Storable block) (rest : List UInt8) :
    read_frame magic (frame magic block ++ rest) = some ((block, block.encode.length), rest) := by
  obtain ⟨htake, hlen, hdrop⟩ := frame_parts magic block rest
  have hlength : (frame magic block ++ rest).length = FRAME_HEADER + block.encode.length + rest.length := by
    rw [List.length_append, length_frame]
  have hpos := encode_pos block
  have hsize := h.size
  rw [read_frame, if_neg (by rw [htake, hlength]; simp; omega), hlen, value_len h]
  rw [if_neg (by rw [hlength]; omega), hdrop, List.take_left, decode_encode h, Option.map_some,
    List.drop_left' (length_frame magic block)]

variable {torn : List UInt8} {no first : ℕ} {blocks last : List Block}

theorem read_frame_torn (h : Storable block) (hstart : torn <+: frame magic block)
    (hlt : torn.length < (frame magic block).length) : read_frame magic torn = none := by
  obtain ⟨rest, hrest⟩ := hstart
  rw [read_frame]
  split_ifs with hhead
  · rfl
  rw [not_or, not_not, Nat.not_lt, FRAME_HEADER] at hhead
  obtain ⟨-, hlen, -⟩ := frame_parts magic block []
  rw [List.append_nil, ← hrest, List.drop_append_of_le_length (by omega),
    List.take_append_of_le_length (by rw [List.length_drop]; omega)] at hlen
  rw [hlen, value_len h]
  rw [if_pos (by rw [length_frame] at hlt; exact .inr (.inr hlt))]

def entries (no : ℕ) : ℕ → List Block → List (Block × BlockPos)
  | _, [] => []
  | cursor, block :: blocks =>
    (block, ⟨no, cursor + FRAME_HEADER, block.encode.length⟩) ::
      entries no (cursor + (FRAME_HEADER + block.encode.length)) blocks

def files (magic : Vector UInt8 4) : ℕ → List (List Block) → Dir
  | _, [] => []
  | first, blocks :: groups => (first, blocks.flatMap (frame magic)) :: files magic (first + 1) groups

def all_entries : ℕ → List (List Block) → List (Block × BlockPos)
  | _, [] => []
  | first, blocks :: groups => entries first 0 blocks ++ all_entries (first + 1) groups

theorem entries_append (no cursor : ℕ) (blocks more : List Block) :
    entries no cursor (blocks ++ more) =
      entries no cursor blocks ++ entries no (cursor + (blocks.flatMap (frame magic)).length) more := by
  induction blocks generalizing cursor with
  | nil => rfl
  | cons block blocks ih =>
    rw [List.cons_append, entries, entries, ih, List.cons_append, List.flatMap_cons, List.length_append, length_frame,
      Nat.add_assoc cursor]

theorem all_entries_append (first : ℕ) (groups more : List (List Block)) :
    all_entries first (groups ++ more) = all_entries first groups ++ all_entries (first + groups.length) more := by
  induction groups generalizing first with
  | nil => rfl
  | cons blocks groups ih =>
    rw [List.cons_append, all_entries, all_entries, ih, List.append_assoc, List.length_cons, Nat.add_assoc first 1,
      Nat.add_comm 1]

theorem files_append (first : ℕ) (groups more : List (List Block)) :
    files magic first (groups ++ more) = files magic first groups ++ files magic (first + groups.length) more := by
  induction groups generalizing first with
  | nil => rfl
  | cons blocks groups ih =>
    rw [List.cons_append, files, files, ih, List.cons_append, List.length_cons, Nat.add_assoc first 1, Nat.add_comm 1]

variable {pos : BlockPos}

theorem mem_entries {no cursor : ℕ} (h : (block, pos) ∈ entries no cursor blocks) :
    ∃ front back, blocks = front ++ block :: back ∧
      pos = ⟨no, cursor + (front.flatMap (frame magic)).length + FRAME_HEADER, block.encode.length⟩ := by
  induction blocks generalizing cursor with
  | nil => simp [entries] at h
  | cons first blocks ih =>
    rcases List.mem_cons.mp h with heq | h
    · cases heq
      exact ⟨[], blocks, rfl, rfl⟩
    · obtain ⟨front, back, rfl, rfl⟩ := ih h
      refine ⟨first :: front, back, rfl, ?_⟩
      rw [List.flatMap_cons, List.length_append, length_frame, Nat.add_assoc cursor]

variable {e : Block × BlockPos} {groups : List (List Block)}

theorem mem_all_entries (h : e ∈ all_entries first groups) :
    ∃ older blocks newer, groups = older ++ blocks :: newer ∧ e ∈ entries (first + older.length) 0 blocks := by
  induction groups generalizing first with
  | nil => simp [all_entries] at h
  | cons blocks groups ih =>
    rcases List.mem_append.mp h with h | h
    · exact ⟨[], blocks, groups, rfl, h⟩
    · obtain ⟨older, blocks', newer, rfl, he⟩ := ih h
      refine ⟨blocks :: older, blocks', newer, rfl, ?_⟩
      rwa [List.length_cons, Nat.add_comm older.length, ← Nat.add_assoc]

theorem entries_file {cursor : ℕ} (h : e ∈ entries no cursor blocks) : e.2.file = no := by
  obtain ⟨block, pos⟩ := e
  obtain ⟨-, -, -, rfl⟩ := @mem_entries (Vector.replicate 4 0) _ _ _ _ _ h
  rfl

theorem all_entries_file (h : e ∈ all_entries first groups) :
    first ≤ e.2.file ∧ e.2.file < first + groups.length := by
  obtain ⟨older, blocks, newer, rfl, he⟩ := mem_all_entries h
  rw [entries_file he, List.length_append, List.length_cons]
  omega

def layout (magic : Vector UInt8 4) (first : ℕ) (older : List (List Block)) (last : List Block)
    (torn : List UInt8) : Dir :=
  files magic first older ++ [(first + older.length, last.flatMap (frame magic) ++ torn)]

theorem layout_nil (first : ℕ) (last : List Block) (torn : List UInt8) :
    layout magic first [] last torn = [(first, last.flatMap (frame magic) ++ torn)] := rfl

theorem layout_cons (first : ℕ) (blocks : List Block) (older : List (List Block)) (last : List Block)
    (torn : List UInt8) :
    layout magic first (blocks :: older) last torn =
      (first, blocks.flatMap (frame magic)) :: layout magic (first + 1) older last torn := by
  rw [layout, files, layout, List.length_cons, Nat.add_assoc first 1, Nat.add_comm 1]
  rfl

theorem get_cons_ne {bytes : List UInt8} {dir : Dir} (h : no ≠ first) :
    Dir.get ((first, bytes) :: dir) no = Dir.get dir no := by
  have hne : (no == first) = false := by simpa using h
  rw [Dir.get, List.lookup_cons, hne]
  rfl

theorem get_cons_self (no : ℕ) (bytes : List UInt8) (dir : Dir) : Dir.get ((no, bytes) :: dir) no = some bytes := by
  rw [Dir.get, List.lookup_cons_self]

theorem get_layout {first : ℕ} {older front newer : List (List Block)} {last blocks : List Block} {torn : List UInt8}
    (h : older ++ [last] = front ++ blocks :: newer) :
    ∃ tail, (layout magic first older last torn).get (first + front.length) =
      some (blocks.flatMap (frame magic) ++ tail) := by
  induction front generalizing first older with
  | nil =>
    cases older with
    | nil =>
      obtain ⟨rfl, -⟩ := List.cons.inj h
      exact ⟨torn, get_cons_self _ _ _⟩
    | cons blocks' older =>
      obtain ⟨rfl, -⟩ := List.cons.inj h
      refine ⟨[], ?_⟩
      rw [layout_cons, List.append_nil]
      exact get_cons_self _ _ _
  | cons blocks' front ih =>
    cases older with
    | nil => simp at h
    | cons blocks'' older =>
      obtain ⟨tail, ht⟩ := @ih (first + 1) _ (List.cons.inj h).2
      refine ⟨tail, ?_⟩
      rw [layout_cons, get_cons_ne (by rw [List.length_cons]; omega), ← ht, List.length_cons]
      congr 1
      omega

theorem get_layout_last (first : ℕ) (older : List (List Block)) (last : List Block) (torn : List UInt8) :
    (layout magic first older last torn).get (first + older.length) = some (last.flatMap (frame magic) ++ torn) := by
  induction older generalizing first with
  | nil => exact get_cons_self _ _ _
  | cons blocks older ih =>
    rw [layout_cons, get_cons_ne (by rw [List.length_cons]; omega), ← ih (first + 1), List.length_cons]
    congr 1
    omega

theorem mem_layout {older : List (List Block)} {file : ℕ × List UInt8}
    (h : file ∈ layout magic first older last torn) :
    first ≤ file.1 ∧ file.1 ≤ first + older.length := by
  induction older generalizing first with
  | nil =>
    obtain rfl := List.mem_singleton.mp h
    exact ⟨le_refl first, le_refl first⟩
  | cons blocks older ih =>
    rw [layout_cons] at h
    rw [List.length_cons]
    rcases List.mem_cons.mp h with rfl | h
    · exact ⟨le_refl first, by omega⟩
    · have hm := ih h
      omega

theorem map_layout (f : List UInt8 → List UInt8) (first : ℕ) (older : List (List Block)) (last : List Block)
    (torn : List UInt8) :
    (layout magic first older last torn).map (fun file => if file.1 = first + older.length then
        (first + older.length, f file.2) else file) =
      files magic first older ++ [(first + older.length, f (last.flatMap (frame magic) ++ torn))] := by
  induction older generalizing first with
  | nil => simp [layout_nil, files]
  | cons blocks older ih =>
    have hne : ¬first = first + (older.length + 1) := by omega
    have hlen : first + (older.length + 1) = first + 1 + older.length := by omega
    rw [layout_cons, List.length_cons, List.map_cons, if_neg hne, hlen, ih, files]
    rfl

theorem append_layout (first : ℕ) (older : List (List Block)) (last : List Block) (bytes : List UInt8) :
    Dir.append (layout magic first older last []) (first + older.length) bytes =
      layout magic first older last bytes := by
  rw [Dir.append, map_layout (fun file => file ++ bytes), List.append_nil, layout]

theorem layout_frame (first : ℕ) (older : List (List Block)) (last : List Block) :
    layout magic first older last (frame magic block) = layout magic first older (last ++ [block]) [] := by
  rw [layout, layout, List.flatMap_append, List.flatMap_singleton, List.append_nil]

theorem set_len_layout (first : ℕ) (older : List (List Block)) (last : List Block) (torn : List UInt8) :
    Dir.set_len (layout magic first older last torn) (first + older.length) (last.flatMap (frame magic)).length =
      layout magic first older last [] := by
  rw [Dir.set_len, map_layout (fun file => file.take (last.flatMap (frame magic)).length), List.take_left, layout,
    List.append_nil]

theorem create_layout (first : ℕ) (older : List (List Block)) (last : List Block) :
    Dir.create (layout magic first older last []) (first + older.length + 1) =
      layout magic first (older ++ [last]) [] [] := by
  have hget : (layout magic first older last []).get (first + older.length + 1) = none := by
    rw [Dir.get, List.lookup_eq_none_iff]
    intro file hfile
    have hm := (mem_layout hfile).2
    simpa using by omega
  have hbelow : (layout magic first older last []).filter (fun file => file.1 < first + older.length + 1) =
      layout magic first older last [] := by
    rw [List.filter_eq_self]
    intro file hfile
    have hm := (mem_layout hfile).2
    simpa using by omega
  have habove : (layout magic first older last []).filter (fun file => first + older.length + 1 < file.1) = [] := by
    rw [List.filter_eq_nil_iff]
    intro file hfile
    have hm := (mem_layout hfile).2
    simpa using by omega
  rw [Dir.create, hget, if_neg (by simp), hbelow, habove, layout, layout, files_append, List.append_nil,
    List.length_append,
    List.append_assoc, List.append_assoc]
  simp [files, Nat.add_assoc]

theorem remove_layout (first : ℕ) (blocks : List Block) (older : List (List Block)) (last : List Block)
    (torn : List UInt8) :
    Dir.remove (layout magic first (blocks :: older) last torn) first = layout magic (first + 1) older last torn := by
  rw [layout_cons, Dir.remove, List.filter_cons_of_neg (by simp), List.filter_eq_self]
  intro file hfile
  have hm := (mem_layout hfile).1
  simpa using by omega

theorem take_magic {blocks : List Block} {torn : List UInt8}
    (htorn : torn = [] ∨ ∃ block, torn <+: frame magic block)
    (hlen : 4 ≤ (blocks.flatMap (frame magic) ++ torn).length) :
    (blocks.flatMap (frame magic) ++ torn).take 4 = magic.toList := by
  cases blocks with
  | nil =>
    rcases htorn with rfl | ⟨block, rest, hrest⟩
    · simp at hlen
    · have hparts := (frame_parts magic block []).1
      rw [List.flatMap_nil, List.nil_append] at hlen ⊢
      rwa [List.append_nil, ← hrest, List.take_append_of_le_length hlen] at hparts
  | cons block blocks =>
    rw [List.flatMap_cons, List.append_assoc]
    exact (frame_parts magic block _).1

theorem read_layout {older : List (List Block)}
    (hstore : ∀ blocks ∈ older ++ [last], ∀ b ∈ blocks,
    Storable b) (h : (block, pos) ∈ all_entries first (older ++ [last])) :
    read_raw_position (layout magic first older last torn) magic pos = .ok block := by
  obtain ⟨front, blocks, newer, heq, he⟩ := mem_all_entries h
  obtain ⟨tail, hget⟩ := @get_layout magic first _ _ _ _ _ torn heq
  obtain ⟨before, after, rfl, rfl⟩ := @mem_entries magic _ _ _ _ _ he
  have hs : Storable block := hstore (before ++ block :: after) (by rw [heq]; simp) block (by simp)
  have hpos := encode_pos block
  have hsize := hs.size
  have hrest : ((before ++ block :: after).flatMap (frame magic) ++ tail).drop (before.flatMap (frame magic)).length =
      frame magic block ++ (after.flatMap (frame magic) ++ tail) := by
    rw [List.flatMap_append, List.flatMap_cons, List.append_assoc, List.drop_left, List.append_assoc]
  obtain ⟨hmagic, hlen, hdrop⟩ := frame_parts magic block (after.flatMap (frame magic) ++ tail)
  rw [read_raw_position, if_neg (by dsimp only; omega)]
  simp only [hget, Nat.zero_add, Nat.add_sub_cancel, hrest, hmagic, hlen, value_len hs, ne_eq, not_true, or_self,
    if_false,
    List.length_append, length_frame, hdrop, List.take_left, decode_encode hs]
  rw [if_neg (by omega), if_neg (by omega)]

section

variable [Platform]

def index_of (index : Table BlockHash BlockPos) (es : List (Block × BlockPos)) : Table BlockHash BlockPos :=
  es.foldl (fun index e => index.insert (Platform.block_hash e.1.header) e.2) index

theorem foldl_index_frame (no cursor : ℕ) (index : Table BlockHash BlockPos) (blocks : List Block) :
    (blocks.map fun block => (block, block.encode.length)).foldl (index_frame no) (cursor, index) =
      (cursor + (blocks.flatMap (frame magic)).length, index_of index (entries no cursor blocks)) := by
  induction blocks generalizing cursor index with
  | nil => rfl
  | cons block blocks ih =>
    rw [List.map_cons, List.foldl_cons, index_frame, ih, entries, List.flatMap_cons, List.length_append, length_frame,
      Nat.add_assoc]
    rfl

variable {torn : List UInt8}

theorem scan_frames (hstore : ∀ b ∈ blocks, Storable b) (htorn : read_frame magic torn = none) (no : ℕ)
    (index : Table BlockHash BlockPos) :
    RecordLog.scan (read_frame magic) (index_frame no) (blocks.flatMap (frame magic) ++ torn).length (0, index)
        (blocks.flatMap (frame magic) ++ torn) =
      (((blocks.flatMap (frame magic)).length, index_of index (entries no 0 blocks)), torn) := by
  have hflat : (blocks.map fun block => (block, block.encode.length)).flatMap (fun r => frame magic r.1) =
      blocks.flatMap (frame magic) := by
    rw [List.flatMap_map]
  have hscan := @RecordLog.scan_records _ _ (read_frame magic) (index_frame no) (fun r => frame magic r.1)
    (blocks.map fun block => (block, block.encode.length)) torn (blocks.flatMap (frame magic) ++ torn).length
    (0, index)
  rw [hflat, @foldl_index_frame magic, Nat.zero_add] at hscan
  apply hscan
  · intro front record back heq
    have hrecord : record ∈ blocks.map fun block => (block, block.encode.length) := by
      rw [heq]
      simp
    obtain ⟨block, hb, rfl⟩ := List.mem_map.mp hrecord
    exact read_frame_frame (hstore block hb) _
  · exact htorn
  · rw [List.length_map, List.length_append]
    refine Nat.le_add_right_of_le ?_
    clear hscan hflat htorn hstore
    induction blocks with
    | nil => exact Nat.zero_le _
    | cons block blocks ih =>
      rw [List.flatMap_cons, List.length_append, length_frame, List.length_cons, FRAME_HEADER]
      omega

theorem scan_files_layout {first : ℕ} {older : List (List Block)} {last : List Block} {torn : List UInt8}
    (hstore : ∀ blocks ∈ older ++ [last], ∀ b ∈ blocks, Storable b) (htorn : read_frame magic torn = none)
    (hnil : read_frame magic [] = none) (scanned : ℕ × ℕ × Table BlockHash BlockPos) :
    scan_files magic (layout magic first older last torn) scanned =
      .ok (first + older.length, (last.flatMap (frame magic)).length,
        index_of scanned.2.2 (all_entries first (older ++ [last]))) := by
  induction older generalizing first scanned with
  | nil =>
    have hscan := scan_frames (hstore last (by simp)) htorn first scanned.2.2
    rw [layout_nil, scan_files, scan_file]
    rw [hscan, if_neg (by simp)]
    simp [all_entries, scan_files, bind, Except.bind]
  | cons blocks older ih =>
    rw [List.cons_append, List.forall_mem_cons] at hstore
    have hscan := @scan_frames magic _ _ [] hstore.1 hnil first scanned.2.2
    rw [List.append_nil] at hscan
    rw [layout_cons, scan_files, scan_file]
    rw [hscan, if_neg (by simp)]
    change scan_files magic (layout magic (first + 1) older last torn) _ = _
    rw [ih hstore.2, List.cons_append, all_entries, index_of, index_of, index_of, List.foldl_append, List.length_cons,
      Nat.add_assoc first 1, Nat.add_comm 1]

theorem open_layout {older : List (List Block)} (hstore : ∀ blocks ∈ older ++ [last], ∀ b ∈ blocks, Storable b)
    (htorn : torn = [] ∨ ∃ block, Storable block ∧ torn <+: frame magic block ∧
      torn.length < (frame magic block).length) (limit : ℕ) :
    open_with_limit (layout magic first older last torn) magic limit =
      .ok (layout magic first older last [],
        ⟨magic, index_of ∅ (all_entries first (older ++ [last])), first + older.length,
          (last.flatMap (frame magic)).length, first + older.length, limit,
          if first = 0 then none else some (first - 1)⟩) := by
  have hnil : read_frame magic [] = none := by simp [read_frame, FRAME_HEADER]
  have hread : read_frame magic torn = none := by
    rcases htorn with rfl | ⟨block, hs, hstart, hlt⟩
    · exact hnil
    · exact read_frame_torn hs hstart hlt
  have hscan := @scan_files_layout magic _ first _ _ _ hstore hread hnil (0, 0, ∅)
  have hset := @set_len_layout magic first older last torn
  have hhead : torn = [] ∨ ∃ block, torn <+: frame magic block := htorn.imp_right fun ⟨block, _, h, _⟩ => ⟨block, h⟩
  cases older with
  | nil =>
    rw [layout_nil] at hscan hset ⊢
    have hmagic : ¬(4 ≤ (last.flatMap (frame magic) ++ torn).length ∧
        (last.flatMap (frame magic) ++ torn).take 4 ≠ magic.toList) := fun h => h.2 (take_magic hhead h.1)
    rw [open_with_limit, if_neg hmagic, hscan]
    change Except.ok _ = _
    rw [hset]
  | cons blocks older =>
    rw [layout_cons] at hscan hset ⊢
    have hmagic : ¬(4 ≤ (blocks.flatMap (frame magic)).length ∧
        (blocks.flatMap (frame magic)).take 4 ≠ magic.toList) := by
      rintro ⟨hlen, hne⟩
      have htake := @take_magic magic blocks [] (.inl rfl)
      rw [List.append_nil] at htake
      exact hne (htake hlen)
    rw [open_with_limit, if_neg hmagic, hscan]
    change Except.ok _ = _
    rw [hset, layout_cons]

variable {es : List (Block × BlockPos)} (index : Table BlockHash BlockPos) {hash : BlockHash}

theorem index_of_other (h : ∀ e ∈ es, Platform.block_hash e.1.header ≠ hash) :
    (index_of index es).lookup hash = index.lookup hash := by
  induction es generalizing index with
  | nil => rfl
  | cons e es ih =>
    rw [List.forall_mem_cons] at h
    rw [index_of, List.foldl_cons]
    change (index_of _ es).lookup hash = _
    rw [ih _ h.2, lookup_insert_eq, if_neg h.1.symm]

theorem index_of_mem (h : e ∈ es) : ∃ e' ∈ es, Platform.block_hash e'.1.header = Platform.block_hash e.1.header ∧
      (index_of index es).lookup (Platform.block_hash e.1.header) = some e'.2 := by
  induction es generalizing e index with
  | nil => cases h
  | cons first es ih =>
    by_cases hlater : ∃ e' ∈ es, Platform.block_hash e'.1.header = Platform.block_hash e.1.header
    · obtain ⟨e', he', hhash⟩ := hlater
      obtain ⟨e'', he'', hhash', hlookup⟩ := ih (index.insert (Platform.block_hash first.1.header) first.2) he'
      rw [← hhash]
      exact ⟨e'', List.mem_cons_of_mem _ he'', hhash', hlookup⟩
    · rcases List.mem_cons.mp h with rfl | he
      · refine ⟨e, List.mem_cons_self, rfl, ?_⟩
        rw [index_of, List.foldl_cons]
        change (index_of _ es).lookup _ = _
        rw [index_of_other _ fun e' he' heq => hlater ⟨e', he', heq⟩, lookup_insert_eq, if_pos rfl]
      · exact absurd ⟨e, he, rfl⟩ hlater

theorem index_of_lookup (h : (index_of ∅ es).lookup hash = some pos) :
    ∃ b, (b, pos) ∈ es ∧ Platform.block_hash b.header = hash := by
  by_cases hany : ∃ e ∈ es, Platform.block_hash e.1.header = hash
  · obtain ⟨e, he, rfl⟩ := hany
    obtain ⟨e', he', hhash, hlookup⟩ := index_of_mem ∅ he
    rw [hlookup] at h
    cases h
    exact ⟨e'.1, he', hhash⟩
  · rw [index_of_other ∅ fun e he heq => hany ⟨e, he, heq⟩] at h
    simp at h

end

end AvilaNode.BlockFiles
