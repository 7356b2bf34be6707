import AvilaNode.SnapshotRuns

/-! A snapshot file's run finds just the coins that were written, and iterates over them in order. -/

namespace AvilaNode

open ByteStrings CoinCodec CoinFormats EpochFiles SliceReader SlidingWindow

namespace SnapshotRun

inductive Varint : ℕ → List UInt8 → ℕ → Prop
  | last {v : ℕ} {c : UInt8} (h : c.toNat < 128) : Varint v [c] (varint_push v c)
  | more {v n : ℕ} {c : UInt8} {bytes : List UInt8} (h : ¬ c.toNat < 128)
    (hv : Varint ((varint_push v c + 1) % 2 ^ 64) bytes n) : Varint v (c :: bytes) n

theorem varint_of_read {v n : ℕ} {bytes : List UInt8} (h : read_varint_from U64_MAX v bytes = some (n, [])) :
    Varint v bytes n := by
  induction bytes generalizing v with
  | nil => cases h
  | cons c bytes ih =>
    simp only [read_varint_from] at h
    split_ifs at h with hbig hlast hmax
    all_goals
      have hpush : varint_push v c = v * 128 + c.toNat % 128 := by
        rw [varint_push, Nat.mod_eq_of_lt]
        unfold U64_MAX at hbig
        omega
    · obtain ⟨rfl, rfl⟩ := Prod.mk.inj (Option.some.inj h)
      rw [← hpush]
      exact .last hlast
    · refine .more hlast ?_
      rw [hpush, Nat.mod_eq_of_lt]
      · exact ih h
      · unfold U64_MAX at hbig hmax
        omega

theorem varint_write {n : ℕ} (h : n < 2 ^ 64) : Varint 0 (write_varint n) n := by
  apply varint_of_read
  have hread := @read_write_varint U64_MAX n [] h (by unfold U64_MAX; omega)
  rwa [List.append_nil] at hread

theorem varint_at_takes {v n : ℕ} {bytes : List UInt8} (h : Varint v bytes n) (rest : List UInt8) :
    varint_at v (bytes ++ rest) = .ok (n, rest) := by
  induction h with
  | last h => rw [List.singleton_append, varint_at, if_pos h]
  | more h _ ih => rw [List.cons_append, varint_at, if_neg h, ih]

section
variable {file : List UInt8}

theorem byte_steps (c : UInt8) : Steps file (byte_at file) [c] c :=
  (@read_steps file [c] WIN MARGIN (List.cons_ne_nil _ _) (Nat.le_of_ble_eq_true rfl)
    (Nat.le_of_ble_eq_true rfl)).map rfl

theorem read_le_steps {width n : ℕ} (h0 : width ≠ 0) (h8 : width ≤ 8) (hn : n < 256 ^ width) :
    Steps file (read_le file width) (le width n) n := by
  have hlen := length_le width n
  have hread := @read_steps file (le width n) WIN MARGIN (List.ne_nil_of_length_pos (by omega))
    (by rw [hlen, MARGIN]; omega) (by rw [hlen, WIN]; omega)
  rw [hlen] at hread
  exact hread.map (value_le hn)

theorem read_cs_steps {n : ℕ} (h : n < 2 ^ 64) : Steps file (read_cs file) (write_compact_size n) n := by
  have hwide {width : ℕ} {b : UInt8} (h0 : width ≠ 0) (h8 : width ≤ 8) (hn : n < 256 ^ width)
      (hread : (if b = 0xfd then read_le file 2 else if b = 0xfe then read_le file 4
        else if b = 0xff then read_le file 8 else pure b.toNat) = read_le file width) :
      Steps file (read_cs file) (b :: le width n) n := by
    have hbind := @Steps.bind _ _ _ (byte_at file) (fun c => if c = 0xfd then read_le file 2
      else if c = 0xfe then read_le file 4 else if c = 0xff then read_le file 8 else pure c.toNat) [b] _ _ _
      (byte_steps b) (hread ▸ read_le_steps h0 h8 hn)
    exact hbind
  unfold write_compact_size
  split_ifs with h1 h2 h3
  · have hb : (UInt8.ofNat n).toNat = n := by rw [UInt8.toNat_ofNat']; omega
    have hne (k : UInt8) (hk : 253 ≤ k.toNat) : UInt8.ofNat n ≠ k := by
      rintro rfl
      omega
    have hbind := @Steps.bind _ _ _ (byte_at file) (fun c => if c = 0xfd then read_le file 2
      else if c = 0xfe then read_le file 4 else if c =
        0xff then read_le file 8 else pure c.toNat) [UInt8.ofNat n] [] n _
      (byte_steps _) (by
        rw [if_neg (hne 0xfd (by decide)), if_neg (hne 0xfe (by decide)), if_neg (hne 0xff (by decide)), hb]
        exact Steps.pure n)
    exact hbind
  · exact hwide (by decide) (by decide) (by norm_num; omega) rfl
  · exact hwide (by decide) (by decide) (by norm_num; omega) rfl
  · exact hwide (by decide) (by decide) (by norm_num; omega) rfl

theorem varint_loop_steps {v n fuel : ℕ} {bytes : List UInt8} (h : Varint v bytes n) (hf : bytes.length ≤ fuel) :
    Steps file (varint_loop file fuel v) bytes n := by
  induction h generalizing fuel with
  | @last v c hc =>
    obtain ⟨fuel, rfl⟩ := Nat.exists_eq_succ_of_ne_zero (Nat.ne_of_gt (Nat.lt_of_lt_of_le (by simp) hf))
    refine @Steps.bind _ _ _ (byte_at file) (fun c => if c.toNat < 128 then pure (varint_push v c)
      else varint_loop file fuel ((varint_push v c + 1) % 2 ^ 64)) [c] [] _ _ (byte_steps c) ?_
    rw [if_pos hc]
    exact Steps.pure _
  | @more v n c bytes hc hv ih =>
    rw [List.length_cons] at hf
    obtain ⟨fuel, rfl⟩ := Nat.exists_eq_succ_of_ne_zero (show fuel ≠ 0 by omega)
    refine @Steps.bind _ _ _ (byte_at file) (fun c => if c.toNat < 128 then pure (varint_push v c)
      else varint_loop file fuel ((varint_push v c + 1) % 2 ^ 64)) [c] bytes _ _ (byte_steps c) ?_
    rw [if_neg hc]
    exact ih (by omega)

theorem scan_varint_steps {n : ℕ} (h : n < 2 ^ 64) : Steps file (scan_varint file) (write_varint n) n := by
  intro c rest hlen hin hdrop
  have hfile := length_of_drop hin hdrop
  exact varint_loop_steps (varint_write h) (by omega) c rest hlen hin hdrop

variable [PublicKeys]

omit [PublicKeys] in
theorem write_varint_ne_nil (n : ℕ) : write_varint n ≠ [] := by simp [write_varint]

variable (script : Script)

theorem length_payload :
    (compress_script script).2.length = payload_len (compress_script script).1 := by
  have hof := template_of script
  have hraw : script.length = payload_len (script.length + 6) := by
    rw [payload_len, if_neg (by omega), if_neg (by omega), Nat.add_sub_cancel]
  unfold compress_script
  split
  · rename_i hash ht
    rw [ht] at hof
    exact hof.2
  · rename_i hash ht
    rw [ht] at hof
    exact hof.2
  · rename_i key ht
    split_ifs with h33 h65
    · obtain ⟨hlen, hprefix⟩ := h33
      have hx : ((key.drop 1).take 32).length = 32 := by simp [hlen]
      rcases hprefix with hprefix | hprefix
      all_goals
        rw [hx, List.getD_eq_getElem?_getD, hprefix]
        rfl
    · have hx : ((key.drop 1).take 32).length = 32 := by simp [h65.1]
      rw [hx, payload_len, if_neg (by omega), if_pos (by omega)]
    · exact hraw
  · exact hraw

theorem scan_script_steps : StepsWithin file (scan_script file (compress_script script).1)
    (compress_script script).2 script := by
  have hcover := @cover_steps file WIN (compress_script script).2
  rw [length_payload] at hcover
  have hread := decompress_compress_script script []
  rw [List.append_nil] at hread
  exact hcover.map (by rw [hread]; rfl)

structure Output (e : OutPoint × Coin) : Prop where
  vout : e.1.vout < 2 ^ 32
  held : Held .Compact e.2

def output_bytes (e : OutPoint × Coin) : List UInt8 := write_compact_size e.1.vout ++ write_coin e.2

variable {e : OutPoint × Coin}

theorem scan_coin_steps (h : Output e) :
    Steps file (scan_coin file e.1.txid) (output_bytes e) e := by
  obtain ⟨⟨txid, vout⟩, ⟨⟨value, script⟩, height, coinbase⟩⟩ := e
  have hv : vout < 2 ^ 32 := h.vout
  have hheight : height < 2 ^ 31 := h.held.height
  obtain ⟨hamount, hvalue⟩ := amount_fits h.held.value
  have hsize := (storable h.held).2
  have hbit := Bool.toNat_le coinbase
  unfold U64_MAX at hamount
  unfold U32_MAX at hsize
  dsimp only at hamount hvalue hsize
  have hcode : (height * 2 + coinbase.toNat) / 2 % 2 ^ 32 = height := by omega
  have hflag : ((height * 2 + coinbase.toNat) % 2 == 1) = coinbase := by
    cases coinbase <;> simp [Nat.add_mod]
  rw [output_bytes, write_coin]
  dsimp only
  rw [List.append_assoc, List.append_assoc]
  apply (read_cs_steps (show vout < 2 ^ 64 by omega)).bind
  apply (scan_varint_steps (show height * 2 + coinbase.toNat < 2 ^ 64 by omega)).bind
  apply (scan_varint_steps (show compress_amount value.toNat < 2 ^ 64 by omega)).bind
  apply (scan_varint_steps (show (compress_script script).1 < 2 ^ 64 by omega)).bind_within (write_varint_ne_nil _)
  refine StepsWithin.bind_pure (scan_script_steps script) ?_
  rw [hvalue, hcode, hflag, Nat.mod_eq_of_lt hv]

theorem scan_coins_steps {txid : Txid} {es : List (OutPoint × Coin)} (h : ∀ e ∈ es, Output e ∧ e.1.txid = txid) :
    Steps file (scan_coins file txid es.length) (es.flatMap output_bytes) es := by
  induction es with
  | nil => exact Steps.pure []
  | cons e es ih =>
    rw [List.forall_mem_cons] at h
    obtain ⟨⟨he, rfl⟩, hrest⟩ := h
    exact (scan_coin_steps he).bind ((ih hrest).map rfl)

omit [PublicKeys] in
theorem hash_of_bytes (hash : Hash256) : BitVec.ofNat 256 (value hash.to_bytes.reverse) = hash := by
  rw [Hash256.to_bytes_eq, List.reverse_reverse, value_le (by simpa using hash.isLt)]
  simp

structure TxGroup where
  txid : Txid
  first : ℕ × Coin
  others : List (ℕ × Coin)

variable (g : TxGroup)

namespace TxGroup

def entries (g : TxGroup) : List (OutPoint × Coin) := (g.first :: g.others).map fun o => (⟨g.txid, o.1⟩, o.2)

def key (g : TxGroup) : RunKey := RunFile.outpoint_key ⟨g.txid, g.first.1⟩

def bytes (g : TxGroup) : List UInt8 :=
  g.txid.to_bytes ++ (write_compact_size g.entries.length ++ g.entries.flatMap output_bytes)

omit [PublicKeys] in
theorem txid_entries {g : TxGroup} (h : e ∈ g.entries) : e.1.txid = g.txid := by
  obtain ⟨o, -, rfl⟩ := List.mem_map.mp h
  rfl

omit [PublicKeys] in
theorem entries_length : g.entries.length = g.others.length + 1 := by simp [entries]

theorem bytes_length : 33 ≤ g.bytes.length := by
  have hcount : write_compact_size g.entries.length ≠ [] := by
    unfold write_compact_size
    split_ifs <;> simp
  have hpos := List.length_pos_iff.mpr hcount
  rw [bytes, List.length_append, List.length_append, Hash256.length_to_bytes]
  omega

end TxGroup

theorem scan_group_steps {g : TxGroup} (h : ∀ e ∈ g.entries, Output e) (hn : g.entries.length < 2 ^ 64) :
    Steps file (scan_group file) g.bytes (g.key, g.entries) := by
  have hread := @read_steps file g.txid.to_bytes WIN MARGIN
    (List.ne_nil_of_length_pos (by rw [Hash256.length_to_bytes]; decide))
    (by rw [Hash256.length_to_bytes]; decide) (by rw [Hash256.length_to_bytes]; decide)
  rw [Hash256.length_to_bytes] at hread
  have hfirst : (⟨g.txid, g.first.1⟩, g.first.2) ∈ g.entries := List.mem_cons_self
  have hvout := (h _ hfirst).vout
  have hcoins := @scan_coins_steps file _ g.txid g.entries fun e he => ⟨h e he, TxGroup.txid_entries he⟩
  refine hread.bind ?_
  rw [hash_of_bytes]
  refine (read_cs_steps hn).bind ?_
  have hfront : g.entries.flatMap output_bytes = write_compact_size g.first.1 ++ (write_coin g.first.2 ++
      (g.others.map fun o => ((⟨g.txid, o.1⟩, o.2) : OutPoint × Coin)).flatMap output_bytes) := by
    rw [TxGroup.entries, List.map_cons, List.flatMap_cons, output_bytes, List.append_assoc]
  rw [hfront] at hcoins ⊢
  exact peek_steps (read_cs_steps (show g.first.1 < 2 ^ 64 by dsimp only at hvout; omega)) (hcoins.map rfl)

def sampled (stride : ℕ) : ℕ → ℕ → List TxGroup → List (RunKey × ℕ)
  | _, _, [] => []
  | i, off, g :: gs =>
    if i % stride = 0 then (g.key, off) :: sampled stride (i + 1) (off + g.bytes.length) gs
    else sampled stride (i + 1) (off + g.bytes.length) gs

variable {fuel n base_height done : ℕ} {gs : List TxGroup} {coins : List (OutPoint × Coin)} {op : OutPoint}
  {txid : Txid} {bytes rest : List UInt8}

theorem scan_groups_eq {stride fuel i : ℕ} {gs : List TxGroup} {c : Cursor} {coins_left : ℕ}
    (h : ∀ e ∈ gs.flatMap TxGroup.entries, Output e) (hn : coins_left = (gs.flatMap TxGroup.entries).length)
    (hlt : coins_left < 2 ^ 64) (hf : gs.length < fuel) (hlen : c.off + c.len ≤ file.length)
    (hin : c.pos ≤ file.length) (hdrop : file.drop c.pos = gs.flatMap TxGroup.bytes) :
    ∃ c', scan_groups file stride fuel coins_left i c =
      some ((sampled stride i c.pos gs, gs.flatMap TxGroup.entries), c') := by
  induction gs generalizing fuel i c coins_left with
  | nil =>
    obtain ⟨fuel, rfl⟩ := Nat.exists_eq_succ_of_ne_zero (show fuel ≠ 0 by simp at hf; omega)
    rw [scan_groups, hn, List.flatMap_nil, List.length_nil, if_pos rfl]
    exact ⟨c, rfl⟩
  | cons g gs ih =>
    obtain ⟨fuel, rfl⟩ := Nat.exists_eq_succ_of_ne_zero (show fuel ≠ 0 by simp at hf; omega)
    rw [List.flatMap_cons, List.length_append] at hn
    rw [List.flatMap_cons, List.forall_mem_append] at h
    rw [List.flatMap_cons] at hdrop
    have hpos := g.entries_length
    obtain ⟨c', hgroup, hpos', hlen', -⟩ :=
      scan_group_steps h.1 (by omega) c (gs.flatMap TxGroup.bytes) hlen hin hdrop
    obtain ⟨c'', hrest⟩ := @ih fuel (i + 1) c' (coins_left - g.entries.length) h.2 (by omega) (by omega)
      (by rw [List.length_cons] at hf; omega) hlen' (hpos' ▸ length_of_drop hin hdrop) (drop_past hdrop hpos')
    have hrun : scan_groups file stride (fuel + 1) coins_left i c =
        (scan_group file c).bind fun r => if coins_left < r.1.2.length then none else
          (scan_groups file stride fuel (coins_left - r.1.2.length) (i + 1) r.2).bind fun rest =>
            some ((if i % stride = 0 then (r.1.1, c.pos) :: rest.1.1 else rest.1.1, r.1.2 ++ rest.1.2), rest.2) := by
      rw [scan_groups, if_neg (by omega)]
      change ((scan_group file c).bind fun r => _) = _
      congr 1
      funext r
      change (if coins_left < r.1.2.length then _ else _ : Scan _) r.2 = _
      split_ifs <;> rfl
    refine ⟨c'', ?_⟩
    rw [hrun, hgroup, Option.bind_some, if_neg (by dsimp only; omega), hrest, Option.bind_some, sampled, hpos',
      List.flatMap_cons]

theorem exists_groups (hf : coins.length ≤ fuel) :
    ∃ gs : List TxGroup, coins = gs.flatMap TxGroup.entries ∧ write_groups fuel coins = gs.flatMap TxGroup.bytes := by
  induction fuel generalizing coins with
  | zero =>
    obtain rfl := List.eq_nil_of_length_eq_zero (Nat.le_zero.mp hf)
    exact ⟨[], rfl, rfl⟩
  | succ fuel ih =>
    cases coins with
    | nil => exact ⟨[], rfl, rfl⟩
    | cons e coins =>
      obtain ⟨op, coin⟩ := e
      rw [List.length_cons] at hf
      have hsplit := List.takeWhile_append_dropWhile (p := fun e : OutPoint × Coin => e.1.txid == op.txid)
        (l := coins)
      have hless : (coins.dropWhile fun e => e.1.txid == op.txid).length ≤ fuel :=
        (List.IsSuffix.length_le (List.dropWhile_suffix _)).trans (by omega)
      obtain ⟨gs, hrest, hwrite⟩ := ih hless
      have hsame : (coins.takeWhile fun e => e.1.txid == op.txid).map
          (fun e => ((⟨op.txid, e.1.vout⟩, e.2) : OutPoint × Coin)) = coins.takeWhile fun e =>
            e.1.txid == op.txid := by
        conv_rhs => rw [← List.map_id (coins.takeWhile _)]
        apply List.map_congr_left
        intro e he
        have htxid : e.1.txid = op.txid := by
          simpa using List.all_eq_true.mp
            (List.all_takeWhile (p := fun e : OutPoint × Coin => e.1.txid == op.txid)) e he
        rw [id, ← htxid]
      let g : TxGroup :=
        ⟨op.txid, (op.vout, coin), (coins.takeWhile fun e => e.1.txid == op.txid).map fun e => (e.1.vout, e.2)⟩
      have hentries : g.entries = (op, coin) :: coins.takeWhile fun e => e.1.txid == op.txid := by
        rw [TxGroup.entries, List.map_cons, List.map_map]
        exact congrArg _ hsame
      refine ⟨g :: gs, ?_, ?_⟩
      · rw [List.flatMap_cons, hentries, ← hrest, List.cons_append, hsplit]
      · rw [List.flatMap_cons, ← hwrite, TxGroup.bytes, hentries, write_groups]
        simp only [write_outputs, List.append_assoc]
        rfl

def header (message_start : Vector UInt8 4) (base_hash : BlockHash) (coins_count : ℕ) : List UInt8 :=
  SNAPSHOT_MAGIC ++ le 2 2 ++ message_start.toList ++ base_hash.to_bytes ++ le 8 coins_count

omit [PublicKeys] in
theorem length_header (message_start : Vector UInt8 4) (base_hash : BlockHash) (coins_count : ℕ) :
    (header message_start base_hash coins_count).length = SNAPSHOT_HEADER := by
  simp [header, SNAPSHOT_MAGIC, SNAPSHOT_HEADER]

theorem index_with_eq (h : ∀ e ∈ gs.flatMap TxGroup.entries, Output e)
    (hn : (gs.flatMap TxGroup.entries).length < 2 ^ 64) (message_start : Vector UInt8 4) (base_hash : BlockHash)
    (stride : UInt32) :
    let coins := gs.flatMap TxGroup.entries
    let file := header message_start base_hash coins.length ++ gs.flatMap TxGroup.bytes
    index_with file stride =
      some (⟨file, sampled (max stride.toNat 1) 0 SNAPSHOT_HEADER gs, coins.length⟩, coins) := by
  intro coins file
  have hheader := length_header message_start base_hash coins.length
  have hlen : file.length = SNAPSHOT_HEADER + (gs.flatMap TxGroup.bytes).length := by
    rw [List.length_append, hheader]
  have hmagic : file.take 5 = SNAPSHOT_MAGIC := by
    simp only [file, header, List.append_assoc]
    exact List.take_left' rfl
  have hcount : value ((file.drop 43).take 8) = coins.length := by
    have hfront : (SNAPSHOT_MAGIC ++ le 2 2 ++ message_start.toList ++ base_hash.to_bytes).length = 43 := by
      simp [SNAPSHOT_MAGIC]
    have hdrop : file.drop 43 = le 8 coins.length ++ gs.flatMap TxGroup.bytes := by
      simp only [file, header]
      rw [List.append_assoc _ (le 8 coins.length), List.drop_left' hfront]
    rw [hdrop, List.take_left' (length_le 8 _), value_le (by omega)]
  have hgs : gs.length < file.length + 1 := by
    have hle : gs.length ≤ (gs.flatMap TxGroup.bytes).length := by
      have hsum := List.length_le_sum_of_one_le (gs.map fun g => g.bytes.length) (by
        intro n hn
        obtain ⟨g, -, rfl⟩ := List.mem_map.mp hn
        have := g.bytes_length
        omega)
      rwa [List.length_map, ← List.length_flatMap] at hsum
    omega
  obtain ⟨c', hscan⟩ := @scan_groups_eq file _ (max stride.toNat 1) (file.length + 1) 0 gs
    ⟨SNAPSHOT_HEADER, SNAPSHOT_HEADER, 0⟩ coins.length h rfl hn hgs (by dsimp only; omega) (by dsimp only; omega)
    (List.drop_left' hheader)
  rw [index_with, if_neg (by omega), if_neg (by rw [hmagic]; exact fun hne => hne rfl)]
  simp only [hcount, hscan, Option.map_some]
  rfl

def Ascending (coins : List (OutPoint × Coin)) : Prop :=
  coins.Pairwise fun a b => (RunFile.outpoint_key a.1).toNat < (RunFile.outpoint_key b.1).toNat

def answer (op : OutPoint) (coins : List (OutPoint × Coin)) : Except Stop Coin :=
  match coins.find? fun e => decide (e.1 = op) with
  | some e => .ok e.2
  | none => .error .miss

omit [PublicKeys] in
theorem answer_cons (op : OutPoint) (e : OutPoint × Coin) (coins : List (OutPoint × Coin)) :
    answer op (e :: coins) = if e.1 = op then .ok e.2 else answer op coins := by
  unfold answer
  rw [List.find?_cons]
  split_ifs with h
  · simp [h]
  · simp [h]

omit [PublicKeys] in
theorem answer_miss (h : ∀ e ∈ coins, e.1 ≠ op) : answer op coins = .error .miss := by
  unfold answer
  rw [List.find?_eq_none.mpr fun e he => by simpa using h e he]

variable {a b : List (OutPoint × Coin)}

omit [PublicKeys] in
theorem answer_append (h : ∀ e ∈ a, e.1 ≠ op) : answer op (a ++ b) = answer op b := by
  unfold answer
  rw [List.find?_append, List.find?_eq_none.mpr fun e he => by simpa using h e he, Option.none_or]

omit [PublicKeys] in
theorem answer_append_left (h : ∀ e ∈ b, e.1 ≠ op) :
    answer op (a ++ b) = answer op a := by
  have hnone : (b.find? fun e => decide (e.1 = op)) = none := List.find?_eq_none.mpr fun e he => by simpa using h e he
  unfold answer
  rw [List.find?_append, hnone, Option.or_none]

omit [PublicKeys] in
theorem cs_write (h : n < 2 ^ 64) (rest : List UInt8) : cs (write_compact_size n ++ rest) = .ok (n, rest) := by
  rw [cs, read_count_takes h rest]

omit [PublicKeys] in
theorem write_compact_size_ne_nil (n : ℕ) : write_compact_size n ≠ [] := by
  unfold write_compact_size
  split_ifs <;> simp

theorem next_output_eq (h : Output e) (rest : List UInt8) :
    next_output (output_bytes e ++ rest) = .ok (e.1.vout, write_coin e.2, rest) := by
  have hv := h.vout
  have hheight := h.held.height
  have hamount := (amount_fits h.held.value).1
  have hsize := (storable h.held).2
  have hbit := Bool.toNat_le e.2.coinbase
  unfold U64_MAX at hamount
  unfold U32_MAX at hsize
  have hcode := varint_at_takes (varint_write (show e.2.height * 2 + e.2.coinbase.toNat < 2 ^ 64 by omega))
  have hamt := varint_at_takes (varint_write (show compress_amount e.2.out.value.toNat < 2 ^ 64 by omega))
  have hid := varint_at_takes (varint_write (show (compress_script e.2.out.script_pubkey).1 < 2 ^ 64 by omega))
  have hpay := length_payload e.2.out.script_pubkey
  have hcoin : write_coin e.2 ++ rest = write_varint (e.2.height * 2 + e.2.coinbase.toNat) ++
      (write_varint (compress_amount e.2.out.value.toNat) ++
        (write_varint (compress_script e.2.out.script_pubkey).1 ++
        ((compress_script e.2.out.script_pubkey).2 ++ rest))) := by
    simp only [write_coin, List.append_assoc]
  have hfour : ¬ (output_bytes e ++ rest).length < 4 := by
    have h0 := List.length_pos_iff.mpr (write_compact_size_ne_nil e.1.vout)
    have h1 := List.length_pos_iff.mpr (write_varint_ne_nil (e.2.height * 2 + e.2.coinbase.toNat))
    have h2 := List.length_pos_iff.mpr (write_varint_ne_nil (compress_amount e.2.out.value.toNat))
    have h3 := List.length_pos_iff.mpr (write_varint_ne_nil (compress_script e.2.out.script_pubkey).1)
    simp only [output_bytes, write_coin, List.length_append]
    omega
  have hbody : (write_coin e.2 ++ rest).take ((write_coin e.2 ++ rest).length - rest.length) = write_coin e.2 := by
    rw [List.length_append, Nat.add_sub_cancel]
    exact List.take_left
  rw [next_output, if_neg hfour, output_bytes, List.append_assoc, cs_write (by omega)]
  change (varint_at 0 (write_coin e.2 ++ rest) >>= fun r => _) = _
  rw [hcoin, hcode]
  change (varint_at 0 _ >>= fun r => _) = _
  rw [hamt]
  change (varint_at 0 _ >>= fun r => _) = _
  rw [hid]
  change (if ((compress_script e.2.out.script_pubkey).2 ++ rest).length <
    payload_len (compress_script e.2.out.script_pubkey).1 then _ else _) = _
  rw [if_neg (by rw [List.length_append, hpay]; omega), List.drop_left' hpay, ← hcoin, hbody, Nat.mod_eq_of_lt hv]
  rfl

theorem group_header (hn : g.entries.length < 2 ^ 64) (rest : List UInt8) :
    ¬ (g.bytes ++ rest).length < 33 ∧ BitVec.ofNat 256 (value ((g.bytes ++ rest).take 32).reverse) = g.txid ∧
      cs ((g.bytes ++ rest).drop 32) = .ok (g.entries.length, g.entries.flatMap output_bytes ++ rest) := by
  have hlen := g.bytes_length
  have htxid := Hash256.length_to_bytes g.txid
  refine ⟨by rw [List.length_append]; omega, ?_, ?_⟩
  · rw [TxGroup.bytes, List.append_assoc, List.take_left' htxid, hash_of_bytes]
  · rw [TxGroup.bytes, List.append_assoc, List.drop_left' htxid, List.append_assoc, cs_write hn]

theorem scan_output (h : Output e) (left : ℕ) (rest : List UInt8) :
    scan op (fuel + 1) e.1.txid (left + 1) (output_bytes e ++ rest) =
      if e.1 = op then .ok e.2
      else if e.1.txid = op.txid ∧ op.vout < e.1.vout ∨ op.txid.toNat < e.1.txid.toNat then .error .miss
      else scan op fuel e.1.txid left rest := by
  have hdecode : CoinFormats.decode_coin (write_coin e.2) .Compact = some e.2 := by
    have htakes : coin_reader .Compact (write_coin e.2) = some (e.2, []) := (coin_takes h.held).whole
    rw [CoinFormats.decode_coin, htakes]
    rfl
  have hsame : (e.1.txid = op.txid ∧ e.1.vout = op.vout) ↔ e.1 = op := by
    obtain ⟨⟨txid, vout⟩, coin⟩ := e
    obtain ⟨txid', vout'⟩ := op
    simp
  rw [scan, next_group, if_neg (Nat.succ_ne_zero left)]
  change (next_output (output_bytes e ++ rest) >>= fun r => _) = _
  rw [next_output_eq h]
  change (if e.1.txid = op.txid ∧ e.1.vout = op.vout then _ else _) = _
  simp only [hsame, hdecode, Nat.add_sub_cancel]
  split_ifs with h1 h2 h3 h4 h5 h6
  all_goals first | rfl | omega | tauto

theorem scan_eq (hop : op.vout < 2 ^ 32) {cur : Txid} {es : List (OutPoint × Coin)} (hcur : ∀ e ∈ es, e.1.txid = cur)
    (h : ∀ e ∈ es ++ gs.flatMap TxGroup.entries, Output e) (hn : (gs.flatMap TxGroup.entries).length < 2 ^ 64)
    (hasc : Ascending (es ++ gs.flatMap TxGroup.entries)) (hf : (es ++ gs.flatMap TxGroup.entries).length < fuel) :
    scan op fuel cur es.length (es.flatMap output_bytes ++ gs.flatMap TxGroup.bytes) =
      answer op (es ++ gs.flatMap TxGroup.entries) := by
  induction fuel generalizing cur es gs with
  | zero => omega
  | succ fuel ih =>
    -- one output of the group that the scan is in
    have hstep {cur : Txid} {e : OutPoint × Coin} {es : List (OutPoint × Coin)} {gs : List TxGroup}
        (hcur : ∀ e' ∈ e :: es, e'.1.txid = cur) (h : ∀ e' ∈ e :: es ++ gs.flatMap TxGroup.entries, Output e')
        (hn : (gs.flatMap TxGroup.entries).length < 2 ^ 64) (hasc : Ascending (e :: es ++ gs.flatMap TxGroup.entries))
        (hf : (e :: es ++ gs.flatMap TxGroup.entries).length < fuel + 1) :
        scan op (fuel + 1) cur (e :: es).length ((e :: es).flatMap output_bytes ++ gs.flatMap TxGroup.bytes) =
          answer op (e :: es ++ gs.flatMap TxGroup.entries) := by
      rw [List.forall_mem_cons] at hcur
      obtain ⟨rfl, hcur⟩ := hcur
      rw [List.cons_append, List.forall_mem_cons] at h
      rw [List.cons_append] at hasc
      obtain ⟨hbelow, hasc⟩ := List.pairwise_cons.mp hasc
      rw [List.cons_append, List.length_cons] at hf
      rw [List.flatMap_cons, List.append_assoc, List.length_cons, scan_output h.1, List.cons_append, answer_cons,
        ih hcur h.2 hn hasc (by omega)]
      split_ifs with heq hpast
      · rfl
      · -- every later key is past the one sought
        refine (answer_miss fun e' he' => ?_).symm
        rintro rfl
        have hlt := hbelow e' he'
        rw [outpoint_key_toNat h.1.vout, outpoint_key_toNat hop] at hlt
        rcases hpast with ⟨htxid, hvout⟩ | htxid
        · rw [htxid] at hlt
          omega
        · omega
      · rfl
    cases es with
    | cons e es => exact hstep hcur h hn hasc hf
    | nil =>
      cases gs with
      | nil => rfl
      | cons g gs =>
        rw [List.flatMap_cons, List.length_append] at hn
        obtain ⟨hlong, htxid, hcount⟩ := group_header g (by omega) (gs.flatMap TxGroup.bytes)
        have hlength := g.entries_length
        have hgroup : scan op (fuel + 1) cur 0 (g.bytes ++ gs.flatMap TxGroup.bytes) =
            scan op (fuel + 1) g.txid g.entries.length
              (g.entries.flatMap output_bytes ++ gs.flatMap TxGroup.bytes) := by
          have hnext : next_group cur 0 (g.bytes ++ gs.flatMap TxGroup.bytes) =
              .ok (g.txid, g.entries.length, g.entries.flatMap output_bytes ++ gs.flatMap TxGroup.bytes) := by
            have hsome : g.entries.length ≠ 0 := by omega
            rw [next_group, if_pos rfl, if_neg hlong, hcount, htxid]
            change (if g.entries.length = 0 then Except.error Stop.miss else pure (_, _, _)) = _
            rw [if_neg hsome]
            rfl
          have hstay : next_group g.txid g.entries.length
            (g.entries.flatMap output_bytes ++ gs.flatMap TxGroup.bytes) =
              .ok (g.txid, g.entries.length, g.entries.flatMap output_bytes ++ gs.flatMap TxGroup.bytes) :=
            if_neg (by omega)
          rw [scan, hnext, scan, hstay]
        rw [List.nil_append, List.flatMap_cons] at h hasc hf ⊢
        rw [List.flatMap_cons, List.flatMap_nil, List.nil_append, List.length_nil, hgroup]
        exact hstep (fun e he => TxGroup.txid_entries he) h (by omega) hasc hf

theorem length_entries_le (gs : List TxGroup) :
    (gs.flatMap TxGroup.entries).length + gs.length ≤ (gs.flatMap TxGroup.bytes).length := by
  have hgroup (es : List (OutPoint × Coin)) : es.length ≤ (es.flatMap output_bytes).length := by
    induction es with
    | nil => exact Nat.le_refl 0
    | cons e es ih =>
      have hpos := List.length_pos_iff.mpr (write_compact_size_ne_nil e.1.vout)
      rw [List.flatMap_cons, List.length_append, List.length_cons, output_bytes, List.length_append]
      omega
  induction gs with
  | nil => exact Nat.le_refl 0
  | cons g gs ih =>
    have hg := hgroup g.entries
    rw [List.flatMap_cons, List.flatMap_cons, List.length_append, List.length_append, TxGroup.bytes,
      List.length_append,
      List.length_append, Hash256.length_to_bytes, List.length_cons]
    omega

theorem scan_window_eq (hop : op.vout < 2 ^ 32) {g : TxGroup} (h : ∀ e ∈ (g :: gs).flatMap TxGroup.entries, Output e)
    (hn : ((g :: gs).flatMap TxGroup.entries).length < 2 ^ 64) (hasc : Ascending ((g :: gs).flatMap TxGroup.entries))
    :
    scan_window op ((g :: gs).flatMap TxGroup.bytes) = answer op ((g :: gs).flatMap TxGroup.entries) := by
  have hfuel := length_entries_le (g :: gs)
  rw [List.length_cons] at hfuel
  rw [List.flatMap_cons, List.length_append] at hn
  obtain ⟨hshort, htxid, hcount⟩ := group_header g (by omega) (gs.flatMap TxGroup.bytes)
  rw [scan_window, List.flatMap_cons, if_neg hshort, hcount, htxid]
  exact scan_eq hop (fun e he => TxGroup.txid_entries he) h (by omega) hasc
    (by rw [← List.flatMap_cons, ← List.flatMap_cons]; omega)

abbrev Chunk := TxGroup × List TxGroup

def Chunk.groups (c : Chunk) : List TxGroup := c.1 :: c.2

def chunk_index : ℕ → List Chunk → List (RunKey × ℕ)
  | _, [] => []
  | off, c :: cs => (c.1.key, off) :: chunk_index (off + (c.groups.flatMap TxGroup.bytes).length) cs

theorem sampled_chunks (stride i off : ℕ) (gs : List TxGroup) : ∃ (head : List TxGroup) (chunks : List Chunk),
    gs = head ++ chunks.flatMap Chunk.groups ∧ (i % stride = 0 → head = []) ∧
      sampled stride i off gs = chunk_index (off + (head.flatMap TxGroup.bytes).length) chunks := by
  induction gs generalizing i off with
  | nil => exact ⟨[], [], rfl, fun _ => rfl, rfl⟩
  | cons g gs ih =>
    obtain ⟨head, chunks, hsplit, -, hsampled⟩ := ih (i + 1) (off + g.bytes.length)
    rw [sampled, hsampled]
    split_ifs with hi
    · refine ⟨[], (g, head) :: chunks, by rw [hsplit]; rfl, fun _ => rfl, ?_⟩
      rw [chunk_index, Chunk.groups, List.flatMap_cons, List.length_append, ← Nat.add_assoc]
      rfl
    · refine ⟨g :: head, chunks, by rw [hsplit]; rfl, fun hz => absurd hz hi, ?_⟩
      rw [List.flatMap_cons, List.length_append, ← Nat.add_assoc]

variable (off : ℕ)

theorem chunk_index_at (a : List Chunk) (c : Chunk) (b : List Chunk) :
    (chunk_index off (a ++ c :: b))[a.length]? =
      some (c.1.key, off + ((a.flatMap Chunk.groups).flatMap TxGroup.bytes).length) := by
  induction a generalizing off with
  | nil => rfl
  | cons d a ih =>
    rw [List.cons_append, chunk_index, List.length_cons, List.getElem?_cons_succ, ih, List.flatMap_cons,
      List.flatMap_append, List.length_append, Nat.add_assoc]

theorem chunk_index_countP (chunks : List Chunk) (key : RunKey) :
    (chunk_index off chunks).countP (fun e => decide (e.1.toNat ≤ key.toNat)) =
      chunks.countP fun c => decide (c.1.key.toNat ≤ key.toNat) := by
  induction chunks generalizing off with
  | nil => rfl
  | cons c chunks ih => rw [chunk_index, List.countP_cons, List.countP_cons, ih]

theorem chunk_index_length (chunks : List Chunk) : (chunk_index off chunks).length = chunks.length := by
  induction chunks generalizing off with
  | nil => rfl
  | cons c chunks ih => rw [chunk_index, List.length_cons, List.length_cons, ih]

omit [PublicKeys] in
theorem countP_split {α : Type} {p : α → Bool} {l : List α} (h : l.Pairwise fun a b => p b = true → p a = true) :
    ∃ a b, l = a ++ b ∧ a.length = l.countP p ∧ (∀ x ∈ a, p x = true) ∧ ∀ x ∈ b, p x = false := by
  induction l with
  | nil => exact ⟨[], [], rfl, rfl, nofun, nofun⟩
  | cons x l ih =>
    obtain ⟨hx, hl⟩ := List.pairwise_cons.mp h
    cases hp : p x with
    | true =>
      obtain ⟨a, b, rfl, hlen, ha, hb⟩ := ih hl
      refine ⟨x :: a, b, rfl, ?_, List.forall_mem_cons.mpr ⟨hp, ha⟩, hb⟩
      rw [List.countP_cons_of_pos hp, List.length_cons, hlen]
    | false =>
      have hall : ∀ y ∈ x :: l, p y = false := by
        rw [List.forall_mem_cons]
        refine ⟨hp, fun y hy => Bool.eq_false_iff.mpr fun hpy => ?_⟩
        rw [hx y hy hpy] at hp
        cases hp
      refine ⟨[], x :: l, rfl, ?_, nofun, hall⟩
      rw [List.length_nil, eq_comm, List.countP_eq_zero]
      exact fun y hy => by rw [hall y hy]; decide

omit [PublicKeys] in
theorem TxGroup.first_mem : ((⟨g.txid, g.first.1⟩, g.first.2) : OutPoint × Coin) ∈ g.entries :=
  List.mem_cons_self

variable {chunks : List Chunk}

omit [PublicKeys] in
theorem chunk_le {c : Chunk} (h : Ascending (((c :: chunks).flatMap Chunk.groups).flatMap TxGroup.entries)) :
    ∀ e ∈ ((c :: chunks).flatMap Chunk.groups).flatMap TxGroup.entries,
      c.1.key.toNat ≤ (RunFile.outpoint_key e.1).toNat := by
  rw [List.flatMap_cons, Chunk.groups, List.cons_append, List.flatMap_cons, TxGroup.entries, List.map_cons,
    List.cons_append] at h ⊢
  obtain ⟨hbelow, -⟩ := List.pairwise_cons.mp h
  rw [List.forall_mem_cons]
  exact ⟨Nat.le_refl _, fun e he => (hbelow e he).le⟩

omit [PublicKeys] in
theorem ascending_of_append {a b : List Chunk}
    (h : Ascending (((a ++ b).flatMap Chunk.groups).flatMap TxGroup.entries)) :
    Ascending ((a.flatMap Chunk.groups).flatMap TxGroup.entries) ∧
      Ascending ((b.flatMap Chunk.groups).flatMap TxGroup.entries) ∧
      ∀ e ∈ (a.flatMap Chunk.groups).flatMap TxGroup.entries, ∀ c ∈ b,
        (RunFile.outpoint_key e.1).toNat < c.1.key.toNat := by
  rw [List.flatMap_append, List.flatMap_append] at h
  obtain ⟨ha, hb, hab⟩ := List.pairwise_append.mp h
  refine ⟨ha, hb, ?_⟩
  intro e he c hc
  have hfirst : ((⟨c.1.txid, c.1.first.1⟩, c.1.first.2) : OutPoint × Coin) ∈
      (b.flatMap Chunk.groups).flatMap TxGroup.entries :=
    List.mem_flatMap.mpr ⟨c.1, List.mem_flatMap.mpr ⟨c, hc, List.mem_cons_self⟩, c.1.first_mem⟩
  simpa only [TxGroup.key] using hab e he _ hfirst

omit [PublicKeys] in
theorem chunk_keys (h : Ascending ((chunks.flatMap Chunk.groups).flatMap TxGroup.entries)) :
    chunks.Pairwise fun c d => c.1.key.toNat < d.1.key.toNat := by
  induction chunks with
  | nil => exact .nil
  | cons c chunks ih =>
    rw [← List.singleton_append] at h
    obtain ⟨-, htail, hbelow⟩ := ascending_of_append h
    refine .cons (fun d hd => ?_) (ih htail)
    exact hbelow _ (List.mem_flatMap.mpr ⟨c.1, by simp [Chunk.groups], c.1.first_mem⟩) d hd

theorem get_eq {op : OutPoint} (hop : op.vout < 2 ^ 32) {gs : List TxGroup}
    (h : ∀ e ∈ gs.flatMap TxGroup.entries, Output e) (hn : (gs.flatMap TxGroup.entries).length < 2 ^ 64)
    (hasc : Ascending (gs.flatMap TxGroup.entries)) {before : List UInt8} {off : ℕ} (hoff : before.length = off)
    (stride count : ℕ) :
    get ⟨before ++ gs.flatMap TxGroup.bytes, sampled stride 0 off gs, count⟩ op =
      answer op (gs.flatMap TxGroup.entries) := by
  obtain ⟨head, chunks, hsplit, hhead, hsampled⟩ := sampled_chunks stride 0 off gs
  obtain rfl := hhead (Nat.zero_mod _)
  rw [List.nil_append] at hsplit
  rw [List.flatMap_nil, List.length_nil, Nat.add_zero] at hsampled
  rw [get, hsampled]
  subst hsplit
  obtain ⟨a, b, rfl, hlen, ha, hb⟩ := countP_split
    ((chunk_keys hasc).imp fun {c d} hlt hd => decide_eq_true (hlt.le.trans (of_decide_eq_true hd)) :
      chunks.Pairwise fun c d => decide (d.1.key.toNat ≤ (RunFile.outpoint_key op).toNat) = true →
        decide (c.1.key.toNat ≤ (RunFile.outpoint_key op).toNat) = true)
  obtain ⟨hasca, hascb, habove⟩ := ascending_of_append hasc
  -- no coin of the chunks after the key is the one sought
  have hafter : ∀ e ∈ (b.flatMap Chunk.groups).flatMap TxGroup.entries, e.1 ≠ op := by
    cases b with
    | nil => nofun
    | cons d b =>
      rintro e he rfl
      have hle := chunk_le hascb e he
      have hlt := of_decide_eq_false (hb d List.mem_cons_self)
      omega
  have hcount := chunk_index_countP off (a ++ b) (RunFile.outpoint_key op)
  rw [← hlen] at hcount
  have hentries (x y : List Chunk) : ((x ++ y).flatMap Chunk.groups).flatMap TxGroup.entries =
      (x.flatMap Chunk.groups).flatMap TxGroup.entries ++ (y.flatMap Chunk.groups).flatMap TxGroup.entries := by
    rw [List.flatMap_append, List.flatMap_append]
  rw [hentries, answer_append_left hafter]
  rcases List.eq_nil_or_concat a with rfl | ⟨a, c, rfl⟩
  · rw [lower_entry, hcount]
    rfl
  rw [List.concat_eq_append] at *
  have hnext : ((chunk_index off (a ++ [c] ++ b))[a.length + 1]?.map Prod.snd).getD
      (before ++ ((a ++ [c] ++ b).flatMap Chunk.groups).flatMap TxGroup.bytes).length =
        off + (((a ++ [c]).flatMap Chunk.groups).flatMap TxGroup.bytes).length := by
    cases b with
    | nil =>
      rw [List.getElem?_eq_none (by rw [chunk_index_length]; simp), List.append_nil, List.length_append, hoff]
      rfl
    | cons d b =>
      have hat := chunk_index_at off (a ++ [c]) d b
      rw [List.length_append, List.length_singleton] at hat
      rw [hat]
      rfl
  have hhere := chunk_index_at off a c b
  rw [List.append_cons] at hhere
  obtain ⟨-, hascc, hbelow⟩ := ascending_of_append hasca
  have hbefore : ∀ e ∈ (a.flatMap Chunk.groups).flatMap TxGroup.entries, e.1 ≠ op := by
    rintro e he rfl
    have hlt := hbelow e he c (List.mem_singleton_self c)
    have hle := of_decide_eq_true (ha c (by simp))
    omega
  rw [hentries, answer_append hbefore, lower_entry, hcount, List.length_append, List.length_singleton]
  simp only [hhere, hnext]
  have hbytes (x y : List Chunk) : ((x ++ y).flatMap Chunk.groups).flatMap TxGroup.bytes =
      (x.flatMap Chunk.groups).flatMap TxGroup.bytes ++ (y.flatMap Chunk.groups).flatMap TxGroup.bytes := by
    rw [List.flatMap_append, List.flatMap_append]
  have hfront : (before ++ (a.flatMap Chunk.groups).flatMap TxGroup.bytes).length =
      off + ((a.flatMap Chunk.groups).flatMap TxGroup.bytes).length := by rw [List.length_append, hoff]
  rw [hbytes (a ++ [c]) b, hbytes a [c], if_neg (by simp only [List.length_append]; omega), List.append_assoc,
    ← List.append_assoc before, List.drop_left' hfront, List.length_append,
    show ∀ m n : ℕ, off + (m + n) - (off + m) = n by omega, List.take_left]
  have hone : [c].flatMap Chunk.groups = c.1 :: c.2 := List.append_nil _
  rw [hone] at hascc ⊢
  rw [hentries, hentries, hone] at h hn
  refine scan_window_eq hop (fun e he => h e ?_) ?_ hascc
  · exact List.mem_append_left _ (List.mem_append_right _ he)
  · simp only [List.length_append] at hn
    omega

omit [PublicKeys] in
theorem read_compact_size_write (h : n < 2 ^ 64) (rest : List UInt8) :
    read_compact_size_from (write_compact_size n ++ rest) = some (n, rest) := by
  have hcanonical {width least : ℕ} (hn : n < 256 ^ width) (hl : least ≤ n) :
      canonical_le width least (le width n ++ rest) = some (n, rest) := by
    have htake : CoinCodec.take width (le width n ++ rest) = some (le width n, rest) :=
      take_takes (length_le width n) rest
    rw [canonical_le, htake]
    simp only [value_le hn]
    rw [if_neg (by omega)]
  unfold write_compact_size
  split_ifs with h1 h2 h3
  · have hb : (UInt8.ofNat n).toNat = n := by rw [UInt8.toNat_ofNat']; omega
    rw [List.singleton_append, read_compact_size_from, hb, if_pos h1]
  · rw [List.cons_append, read_compact_size_from, if_neg (by decide), if_pos rfl]
    exact hcanonical (by norm_num; omega) (by omega)
  · rw [List.cons_append, read_compact_size_from, if_neg (by decide), if_neg (by decide), if_pos rfl]
    exact hcanonical (by norm_num; omega) (by omega)
  · rw [List.cons_append, read_compact_size_from, if_neg (by decide), if_neg (by decide), if_neg (by decide)]
    exact hcanonical (by norm_num; omega) (by omega)

theorem read_output_eq (h : Output e) (hv : e.1.vout < U32_MAX) (done : ℕ) (rest : List UInt8) :
    read_output U32_MAX e.1.txid done (output_bytes e ++ rest) = .ok (e, rest) := by
  have hvout := h.vout
  have hheight := h.held.height
  have hlow : ¬ (U32_MAX < e.2.height ∨ U32_MAX ≤ e.1.vout) := by
    unfold U32_MAX at hv ⊢
    omega
  rw [read_output, output_bytes, List.append_assoc, read_compact_size_write (by omega)]
  simp only [write_coin_takes h.held rest]
  rw [if_neg hlow, h.held.value, if_neg (by decide), Nat.mod_eq_of_lt hvout]

theorem read_outputs_eq {es : List (OutPoint × Coin)}
    (h : ∀ e ∈ es, (Output e ∧ e.1.vout < U32_MAX) ∧ e.1.txid = txid) (done : ℕ) (rest : List UInt8) :
    read_outputs U32_MAX txid es.length done (es.flatMap output_bytes ++ rest) = .ok (es, rest) := by
  induction es generalizing done with
  | nil => rfl
  | cons e es ih =>
    rw [List.forall_mem_cons] at h
    obtain ⟨⟨⟨he, hv⟩, rfl⟩, hes⟩ := h
    rw [List.length_cons, read_outputs, List.flatMap_cons, List.append_assoc, read_output_eq he hv]
    change (read_outputs U32_MAX e.1.txid es.length (done + 1) (es.flatMap output_bytes ++ rest) >>= fun r => _) = _
    rw [ih hes]
    rfl

theorem read_groups_eq (h : ∀ e ∈ gs.flatMap TxGroup.entries, Output e ∧ e.1.vout < U32_MAX)
    (hn : (gs.flatMap TxGroup.entries).length < 2 ^ 64) (hf : gs.length < fuel) (done : ℕ) :
    read_groups U32_MAX fuel (gs.flatMap TxGroup.entries).length done (gs.flatMap TxGroup.bytes) =
      .ok (gs.flatMap TxGroup.entries, []) := by
  induction gs generalizing fuel done with
  | nil =>
    obtain ⟨fuel, rfl⟩ := Nat.exists_eq_succ_of_ne_zero (show fuel ≠ 0 by simp at hf; omega)
    rfl
  | cons g gs ih =>
    obtain ⟨fuel, rfl⟩ := Nat.exists_eq_succ_of_ne_zero (show fuel ≠ 0 by simp at hf; omega)
    have hlength := g.entries_length
    rw [List.length_cons] at hf
    rw [List.flatMap_cons, List.forall_mem_append] at h
    rw [List.flatMap_cons, List.length_append] at hn
    have hhash : read_hash (g.txid.to_bytes ++ (write_compact_size g.entries.length ++
        (g.entries.flatMap output_bytes ++ gs.flatMap TxGroup.bytes))) =
          some (g.txid, write_compact_size g.entries.length ++
          (g.entries.flatMap output_bytes ++ gs.flatMap TxGroup.bytes)) := read_hash_takes g.txid _
    rw [List.flatMap_cons, List.flatMap_cons, List.length_append, read_groups, if_neg (by omega), TxGroup.bytes,
      List.append_assoc, List.append_assoc, hhash]
    simp only [read_compact_size_write (show g.entries.length < 2 ^ 64 by omega)]
    rw [if_neg (by omega), read_outputs_eq fun e he => ⟨h.1 e he, TxGroup.txid_entries he⟩]
    change (read_groups U32_MAX fuel (g.entries.length + (gs.flatMap TxGroup.entries).length - g.entries.length)
      (done + g.entries.length) (gs.flatMap TxGroup.bytes) >>= fun r => _) = _
    rw [Nat.add_sub_cancel_left, ih h.2 (by omega) (by omega)]
    rfl

theorem read_output_vout (h : read_output base_height txid done bytes = .ok (e, rest)) :
    e.1.vout < U32_MAX := by
  unfold read_output at h
  cases hv : read_compact_size_from bytes with
  | none => simp [hv] at h
  | some found =>
    cases hc : read_coin found.2 with
    | none => simp [hv, hc] at h
    | some coin =>
      simp only [hv, hc] at h
      split_ifs at h with hbad hvalue
      obtain ⟨rfl, rfl⟩ := Prod.mk.inj (Except.ok.inj h)
      have hlow : found.1 < U32_MAX := Nat.lt_of_not_le fun hle => hbad (Or.inr hle)
      exact (Nat.mod_le _ _).trans_lt hlow

theorem read_outputs_vout {es : List (OutPoint × Coin)}
    (h : read_outputs base_height txid n done bytes = .ok (es, rest)) :
    ∀ e ∈ es, e.1.vout < U32_MAX := by
  induction n generalizing done bytes rest es with
  | zero =>
    obtain ⟨rfl, -⟩ := Prod.mk.inj (Except.ok.inj h)
    nofun
  | succ n ih =>
    rw [read_outputs] at h
    cases hone : read_output base_height txid done bytes with
    | error e =>
      rw [hone] at h
      cases h
    | ok found =>
      rw [hone] at h
      cases hrest : read_outputs base_height txid n (done + 1) found.2 with
      | error e =>
        change (read_outputs base_height txid n (done + 1) found.2 >>= fun r => _) = _ at h
        rw [hrest] at h
        cases h
      | ok more =>
        change (read_outputs base_height txid n (done + 1) found.2 >>= fun r => _) = _ at h
        rw [hrest] at h
        obtain ⟨rfl, -⟩ := Prod.mk.inj (Except.ok.inj h)
        exact List.forall_mem_cons.mpr ⟨read_output_vout hone, ih hrest⟩

theorem read_groups_vout {left : ℕ} {es : List (OutPoint × Coin)}
    (h : read_groups base_height fuel left done bytes = .ok (es, rest)) : ∀ e ∈ es, e.1.vout < U32_MAX := by
  induction fuel generalizing left done bytes rest es with
  | zero => cases h
  | succ fuel ih =>
    rw [read_groups] at h
    split_ifs at h with h0
    · obtain ⟨rfl, -⟩ := Prod.mk.inj (Except.ok.inj h)
      nofun
    cases hhash : read_hash bytes with
    | none => simp [hhash] at h
    | some txid =>
      cases hcount : read_compact_size_from txid.2 with
      | none => simp [hhash, hcount] at h
      | some count =>
        simp only [hhash, hcount] at h
        split_ifs at h with hfew
        cases hone : read_outputs base_height txid.1 count.1 done count.2 with
        | error e =>
          rw [hone] at h
          cases h
        | ok found =>
          rw [hone] at h
          cases hrest : read_groups base_height fuel (left - count.1) (done + count.1) found.2 with
          | error e =>
            change (read_groups base_height fuel (left - count.1) (done + count.1) found.2 >>= fun r => _) = _ at h
            rw [hrest] at h
            cases h
          | ok more =>
            change (read_groups base_height fuel (left - count.1) (done + count.1) found.2 >>= fun r => _) = _ at h
            rw [hrest] at h
            obtain ⟨rfl, -⟩ := Prod.mk.inj (Except.ok.inj h)
            exact List.forall_mem_append.mpr ⟨read_outputs_vout hone, ih hrest⟩

theorem read_coins_iff (h : ∀ e ∈ gs.flatMap TxGroup.entries, Output e)
    (hn : (gs.flatMap TxGroup.entries).length < 2 ^ 64) :
    read_coins (gs.flatMap TxGroup.entries).length U32_MAX (gs.flatMap TxGroup.bytes) =
      .ok (gs.flatMap TxGroup.entries) ↔ ∀ e ∈ gs.flatMap TxGroup.entries, e.1.vout < U32_MAX := by
  have hfuel := length_entries_le gs
  constructor
  · intro hread
    rw [read_coins] at hread
    cases hgroups : read_groups U32_MAX ((gs.flatMap TxGroup.bytes).length + 1) (gs.flatMap TxGroup.entries).length 0
        (gs.flatMap TxGroup.bytes) with
    | error e =>
      rw [hgroups] at hread
      cases hread
    | ok found =>
      rw [hgroups] at hread
      change (if found.2.isEmpty then pure found.1 else Except.error (SnapshotError.LeftOver _)) = _ at hread
      split_ifs at hread with hrest
      have heq : found.1 = gs.flatMap TxGroup.entries := Except.ok.inj hread
      obtain ⟨coins, extra⟩ := found
      subst heq
      exact read_groups_vout hgroups
  · intro hv
    rw [read_coins, read_groups_eq (fun e he => ⟨h e he, hv e he⟩) hn (by omega)]
    rfl

structure Writable (coins : List (OutPoint × Coin)) : Prop where
  ascending : Ascending coins
  outputs : ∀ e ∈ coins, Output e
  count : coins.length < 2 ^ 64

omit [PublicKeys] in
theorem answer_mem (h : Ascending coins) (he : e ∈ coins) : answer e.1 coins = .ok e.2 := by
  induction coins with
  | nil => cases he
  | cons d coins ih =>
    obtain ⟨hbelow, htail⟩ := List.pairwise_cons.mp h
    rw [answer_cons]
    rcases List.mem_cons.mp he with rfl | he
    · rw [if_pos rfl]
    have hne : d.1 ≠ e.1 := by
      intro heq
      have hlt := hbelow e he
      rw [heq] at hlt
      exact Nat.lt_irrefl _ hlt
    rw [if_neg hne, ih htail he]

theorem snapshot_run_exact (h : Writable coins) (message_start : Vector UInt8 4) (base_hash : BlockHash)
    (stride : UInt32) : ∃ run,
    index_with (write_snapshot message_start base_hash coins.length coins) stride = some (run, coins) ∧
      index (write_snapshot message_start base_hash coins.length coins) stride = some run ∧
      (∀ e ∈ coins, run.get e.1 = .ok e.2) ∧
      (∀ op : OutPoint, op.vout < 2 ^ 32 → (∀ e ∈ coins, e.1 ≠ op) → run.get op = .error .miss) ∧
      (run.iter = .ok coins ↔ ∀ e ∈ coins, e.1.vout < U32_MAX) := by
  obtain ⟨hasc, hout, hcount⟩ := h
  obtain ⟨gs, hgs, hwrite⟩ := exists_groups (Nat.le_refl coins.length)
  have hfile : write_snapshot message_start base_hash coins.length coins =
      header message_start base_hash coins.length ++ gs.flatMap TxGroup.bytes := by
    rw [write_snapshot, hwrite]
    rfl
  have hlen := length_header message_start base_hash coins.length
  have hindex := @index_with_eq _ gs (hgs ▸ hout) (hgs ▸ hcount) message_start base_hash stride
  rw [hfile]
  rw [← hgs] at hindex
  have hget {op : OutPoint} (hop : op.vout < 2 ^ 32) := @get_eq _ op hop gs (hgs ▸ hout) (hgs ▸ hcount) (hgs ▸ hasc)
    (header message_start base_hash coins.length) SNAPSHOT_HEADER hlen (max stride.toNat 1) coins.length
  rw [← hgs] at hget
  refine ⟨_, hindex, ?_, ?_, ?_, ?_⟩
  · rw [index, hindex]
    rfl
  · intro e he
    rw [hget (hout e he).vout, answer_mem hasc he]
  · intro op hop hne
    rw [hget hop, answer_miss hne]
  · have hiter := @read_coins_iff _ gs (hgs ▸ hout) (hgs ▸ hcount)
    rw [← hgs] at hiter
    rw [iter, List.drop_left' hlen]
    exact hiter

end

end SnapshotRun

section

attribute [local instance] RunFile.PublicKeys.none

open SnapshotRun CoinFormats

def snapshot_sample : List (OutPoint × Coin) :=
  [(⟨7, 0⟩, ⟨⟨50, [0x51]⟩, 1, true⟩), (⟨7, 300⟩, ⟨⟨5000000000, []⟩, 2, false⟩),
    (⟨9, 2 ^ 32 - 1⟩, ⟨⟨0, [0x6a]⟩, 3, false⟩)]

theorem writable_snapshot_sample : Writable snapshot_sample where
  ascending := by rw [snapshot_sample, Ascending]; decide
  outputs := by
    intro e he
    simp only [snapshot_sample, List.mem_cons, List.not_mem_nil, or_false] at he
    obtain rfl | rfl | rfl := he
    all_goals
      exact ⟨by norm_num, by decide, by norm_num, by norm_num [script_limit, CoinCodec.U32_MAX]⟩
  count := by decide

theorem snapshot_run_exact_sample : Writable snapshot_sample ∧ ∃ run,
    index (write_snapshot #v[0xf9, 0xbe, 0xb4, 0xd9] 5 3 snapshot_sample) 2 = some run ∧
      run.get ⟨7, 300⟩ = .ok ⟨⟨5000000000, []⟩, 2, false⟩ ∧ run.get ⟨8, 0⟩ = .error .miss := by
  obtain ⟨run, -, hindex, hget, hmiss, -⟩ :=
    snapshot_run_exact writable_snapshot_sample #v[0xf9, 0xbe, 0xb4, 0xd9] 5 2
  have hlisted := hget (⟨7, 300⟩, ⟨⟨5000000000, []⟩, 2, false⟩) (by decide)
  exact ⟨writable_snapshot_sample, run, hindex, hlisted, hmiss ⟨8, 0⟩ (by decide) (by decide)⟩

/-- A file of one coin whose index is the last `u32` is indexed and its coin found, and loading refuses it; a height
that leaves no room for the coinbase flag is written and not found. -/
theorem last_index_unread :
    (∃ run, index (write_snapshot #v[0xf9, 0xbe, 0xb4, 0xd9] 5 1 [(⟨9, 2 ^ 32 - 1⟩, ⟨⟨0, [0x6a]⟩, 3, false⟩)]) 1 =
      some run
      ∧ run.get ⟨9, 2 ^ 32 - 1⟩ = .ok ⟨⟨0, [0x6a]⟩, 3, false⟩
      ∧ run.iter = .error (.BadData 0 3 (2 ^ 32 - 1) 9))
    ∧ (index (write_snapshot #v[0xf9, 0xbe, 0xb4, 0xd9] 5 1 [(⟨9, 0⟩, ⟨⟨0, [0x6a]⟩, 2 ^ 31, false⟩)]) 1).map
        (fun run => run.get ⟨9, 0⟩) = some (.error .miss) := by
  constructor
  · refine ⟨(index (write_snapshot #v[0xf9, 0xbe, 0xb4, 0xd9] 5 1
      [(⟨9, 2 ^ 32 - 1⟩, ⟨⟨0, [0x6a]⟩, 3, false⟩)]) 1).get (by decide +kernel), (Option.some_get _).symm, ?_, ?_⟩
    · decide +kernel
    · decide +kernel
  · decide +kernel

end

end AvilaNode
