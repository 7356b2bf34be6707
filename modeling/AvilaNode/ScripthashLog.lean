import AvilaNode.ScripthashIndex

/-! What the scripthash index keeps across a restart, over every run of connects, disconnects and reopens. -/

namespace AvilaNode

open Layers

namespace ScripthashIndex

def logged (records : List Record) : ScripthashIndex :=
  { records.foldl apply_record empty with
    log := some (LogFile.at_end (MAGIC ++ records.flatMap Record.bytes)) }

theorem rewind_log (idx : ScripthashIndex) (log : Option LogFile) (height : ℕ) :
    { idx with log := log }.rewind height = { idx.rewind height with log := log } := by
  unfold rewind
  dsimp only
  split <;> rfl

theorem apply_connect_log (idx : ScripthashIndex) (log : Option LogFile) (height : ℕ) (recs : BlockScripts) :
    { idx with log := log }.apply_connect height recs = { idx.apply_connect height recs with log := log } := by
  simp only [apply_connect, rewind_log]

theorem write_log_logged (idx : ScripthashIndex) (file bytes : List UInt8) :
    { idx with log := some (LogFile.at_end file) }.write_log bytes
      = { idx with log := some (LogFile.at_end (file ++ bytes)) } := by
  simp only [write_log, Option.map_some, LogFile.write_all_at_end]

theorem logged_connect (records : List Record) (height : ℕ) (recs : BlockScripts) :
    ((logged records).apply_connect height recs).write_log (connect_record height recs)
      = logged (records ++ [.connect height recs]) := by
  rw [logged, apply_connect_log, write_log_logged, logged, List.foldl_append, List.flatMap_append,
    List.append_assoc]
  simp [apply_record, Record.bytes]

theorem logged_disconnect (records : List Record) (height : ℕ) :
    (logged records).disconnect height = logged (records ++ [.disconnect height]) := by
  rw [logged, disconnect, rewind_log, write_log_logged, logged, List.foldl_append, List.flatMap_append,
    List.append_assoc]
  simp [apply_record, disconnect, write_log, Record.bytes]

variable {records : List Record}

variable {tail : List UInt8}

theorem records_read (hn : ∀ r ∈ records, r.Narrow)
    (ht : 2 ≤ tail.length ∨ ∀ height, records.getLast? ≠ some (.disconnect height)) (front : List Record)
    (record : Record) (back : List Record) (h : records = front ++ record :: back) :
    read_record (record.bytes ++ (back.flatMap Record.bytes ++ tail))
      = some (record, back.flatMap Record.bytes ++ tail) := by
  have hr : record.Narrow := hn record (by simp [h])
  cases record with
  | connect height recs => exact read_connect_record hr _
  | disconnect height =>
    apply read_disconnect_record hr
    rw [List.length_append]
    cases back with
    | nil =>
      rcases ht with ht | ht
      · omega
      · exact absurd (by simp [h]) (ht height)
    | cons next back =>
      have hl := next.five_le_length
      rw [List.flatMap_cons, List.length_append]
      omega

theorem length_le_bytes (records : List Record) : records.length ≤ (records.flatMap Record.bytes).length := by
  induction records with
  | nil => simp
  | cons record records ih =>
    have hl := record.five_le_length
    rw [List.flatMap_cons, List.length_append, List.length_cons]
    omega

theorem open_log_records (hn : ∀ r ∈ records, r.Narrow)
    (ht : 2 ≤ tail.length ∨ ∀ height, records.getLast? ≠ some (.disconnect height)) (htail : read_record tail = none) :
    open_log (some (MAGIC ++ records.flatMap Record.bytes ++ tail)) =
      { records.foldl apply_record empty with
        log := some ⟨MAGIC ++ records.flatMap Record.bytes,
          (MAGIC ++ records.flatMap Record.bytes ++ tail).length⟩ } := by
  have hl := length_le_bytes records
  have hscan : RecordLog.scan read_record apply_record (MAGIC ++ records.flatMap Record.bytes ++ tail).length empty
      (records.flatMap Record.bytes ++ tail) = (records.foldl apply_record empty, tail) := by
    apply RecordLog.scan_records empty (records_read hn ht) htail
    simp only [List.length_append]
    omega
  have hmagic : MAGIC.isPrefixOf (MAGIC ++ records.flatMap Record.bytes ++ tail) = true := by
    simp [List.append_assoc]
  have hdrop : (MAGIC ++ records.flatMap Record.bytes ++ tail).drop MAGIC.length
      = records.flatMap Record.bytes ++ tail := by
    rw [List.append_assoc, List.drop_left]
  have hcut : (MAGIC ++ records.flatMap Record.bytes ++ tail).length - tail.length
      = (MAGIC ++ records.flatMap Record.bytes).length := by
    rw [List.length_append, Nat.add_sub_cancel]
  simp only [open_log, hmagic, if_true, hdrop, hscan, hcut]
  split
  · rw [LogFile.at_end, LogFile.set_len_append]
  · rename_i hlen
    have hnil : tail = [] := by simpa using hlen
    simp [hnil, LogFile.at_end]

theorem reopen_logged (hn : ∀ r ∈ records, r.Narrow)
    (hlast : ∀ height, records.getLast? ≠ some (.disconnect height)) :
    (logged records).reopen = logged records := by
  have h := @open_log_records records [] hn (.inr hlast) rfl
  rw [List.append_nil] at h
  exact h

theorem reopen_disconnected (hn : ∀ r ∈ records, r.Narrow) (height : ℕ) :
    (logged (records ++ [.disconnect height])).reopen =
      { logged records with log := some ⟨MAGIC ++ records.flatMap Record.bytes,
          (MAGIC ++ records.flatMap Record.bytes ++ disconnect_record height).length⟩ } := by
  have hl : (disconnect_record height).length = 5 := by simp [disconnect_record]
  have h := @open_log_records records (disconnect_record height) hn (.inl (by omega)) (by simp [read_record, hl])
  have hfile : (logged (records ++ [.disconnect height])).log.map LogFile.bytes
      = some (MAGIC ++ records.flatMap Record.bytes ++ disconnect_record height) := by
    simp [logged, LogFile.at_end, Record.bytes]
  rw [reopen, hfile]
  exact h

structure SameMaps (a b : ScripthashIndex) : Prop where
  by_script : ∀ sh, a.by_script.lookup sh = b.by_script.lookup sh
  by_height : ∀ height, a.by_height.lookup height = b.by_height.lookup height

theorem rewind_by_height (idx : ScripthashIndex) (height : ℕ) :
    (idx.rewind height).by_height.lookup height = none := by
  unfold rewind
  cases h : idx.by_height.lookup height with
  | none => exact h
  | some recs => simp

inductive Op where
  | append (block : Block) (undo : BlockUndo)
  | disconnect
  | reopen

variable (sha256 : Script → Hash256) [Platform]

inductive Follows : List Op → ℕ → ScripthashIndex → Prop
  | opened {length : ℕ} (hl : length ≤ 2 ^ 32) : Follows [] length (open_log none)
  | append {ops : List Op} {length : ℕ} {idx : ScripthashIndex} {block : Block} {undo : BlockUndo}
      (h : Follows ops length idx) (hl : length < 2 ^ 32) (hv : block.WithinLimits) :
      Follows (.append block undo :: ops) (length + 1) (idx.append sha256 length block undo)
  | disconnect {ops : List Op} {length : ℕ} {idx : ScripthashIndex} (h : Follows ops (length + 1) idx) :
      Follows (.disconnect :: ops) length (idx.disconnect length)
  | reopen {ops : List Op} {length : ℕ} {idx : ScripthashIndex} (h : Follows ops length idx) :
      Follows (.reopen :: ops) length idx.reopen

def rewound : List Op → Bool
  | [] => false
  | .append _ _ :: _ => false
  | .disconnect :: _ => true
  | .reopen :: ops => rewound ops

/-- No reopen finds a disconnect at the end of the log, and no transaction touches more scripts than a
`u16` counts. -/
def Kept : List Op → Prop
  | [] => True
  | .append block undo :: ops => (∀ r ∈ block_scripts sha256 block undo, r.2.length < 2 ^ 16) ∧ Kept ops
  | .disconnect :: ops => Kept ops
  | .reopen :: ops => rewound ops = false ∧ Kept ops

variable {sha256} {ops : List Op} {length : ℕ} {idx : ScripthashIndex}

theorem Follows.length_le (h : Follows sha256 ops length idx) : length ≤ 2 ^ 32 := by
  induction h with
  | opened hl => exact hl
  | append _ hl _ _ => omega
  | disconnect _ ih => omega
  | reopen _ ih => exact ih

theorem Follows.logged (h : Follows sha256 ops length idx) (hk : Kept sha256 ops) :
    ∃ records, idx = logged records ∧ (∀ r ∈ records, r.Narrow) ∧
      (rewound ops = false → ∀ height, records.getLast? ≠ some (.disconnect height)) := by
  induction h with
  | opened _ => exact ⟨[], rfl, by simp, by simp⟩
  | @append ops length idx block undo h hl hv ih =>
    obtain ⟨hs, hk⟩ := hk
    obtain ⟨records, rfl, hn, -⟩ := ih hk
    refine ⟨_, logged_connect records length _, ?_, by simp⟩
    have hlen : (block_scripts sha256 block undo).length < 2 ^ 16 := by
      simpa [block_scripts] using hv.length_lt
    intro r hr
    rcases List.mem_append.mp hr with hr | hr
    · exact hn r hr
    · rw [List.mem_singleton.mp hr]
      exact ⟨hl, hlen, hs⟩
  | @disconnect ops length idx h ih =>
    obtain ⟨records, rfl, hn, -⟩ := ih hk
    refine ⟨_, logged_disconnect records length, ?_, by simp [rewound]⟩
    intro r hr
    rcases List.mem_append.mp hr with hr | hr
    · exact hn r hr
    · rw [List.mem_singleton.mp hr]
      exact h.length_le
  | reopen h ih =>
    obtain ⟨hw, hk⟩ := hk
    obtain ⟨records, rfl, hn, hlast⟩ := ih hk
    exact ⟨records, reopen_logged hn (hlast hw), hn, hlast⟩

theorem scripthash_log_faithful (h : Follows sha256 ops length idx) (hk : Kept sha256 ops) :
    (rewound ops = false → idx.reopen = idx) ∧
    (∀ height recs, length = height + 1 → idx.by_height.lookup height = some recs →
      ¬ SameMaps (idx.disconnect height).reopen (idx.disconnect height)) := by
  obtain ⟨records, rfl, hn, hlast⟩ := h.logged hk
  refine ⟨fun hw => reopen_logged hn (hlast hw), fun height recs hl hr hsame => ?_⟩
  have hlost := hsame.by_height height
  have hlive : ((ScripthashIndex.logged records).disconnect height).by_height.lookup height = none :=
    rewind_by_height _ height
  rw [hlive, logged_disconnect, reopen_disconnected hn height] at hlost
  rw [hr] at hlost
  cases hlost

end ScripthashIndex

section Sample

attribute [local instance] Platform.sample

namespace ScripthashIndex

def sample_sha256 (script : Script) : Hash256 := BitVec.ofNat 256 script.length

def sample_block (n : ℕ) (script : Script) : Block where
  header := sample_header 1 n 0
  transactions := [⟨1, [⟨OutPoint.NULL, [1, 1], 0, []⟩], [⟨5, script⟩], n⟩]

def sample_ops : List Op :=
  [.append (sample_block 3 [1, 2]) ⟨[]⟩, .reopen, .disconnect, .append (sample_block 2 [1]) ⟨[]⟩]

def sample_first : ScripthashIndex := (open_log none).append sample_sha256 1 (sample_block 2 [1]) ⟨[]⟩

def sample_second : ScripthashIndex :=
  (sample_first.disconnect 1).reopen.append sample_sha256 1 (sample_block 3 [1, 2]) ⟨[]⟩

theorem sample_first_follows : Follows sample_sha256 [.append (sample_block 2 [1]) ⟨[]⟩] 2 sample_first := by
  apply Follows.append (.opened (by decide)) (by decide)
  refine ⟨by decide, fun tx ht => ?_⟩
  rw [List.mem_singleton.mp ht]
  rfl

theorem scripthash_log_faithful_sample :
    sample_first.reopen = sample_first ∧
      ¬ SameMaps (sample_first.disconnect 1).reopen (sample_first.disconnect 1) := by
  have h := scripthash_log_faithful sample_first_follows ⟨by decide, trivial⟩
  exact ⟨h.1 rfl, h.2 1 [(2, [1])] rfl (by decide)⟩

theorem scripthash_log_loses_disconnect :
    Follows sample_sha256 [.disconnect, .append (sample_block 2 [1]) ⟨[]⟩] 1 (sample_first.disconnect 1) ∧
      ¬ SameMaps (sample_first.disconnect 1).reopen (sample_first.disconnect 1) ∧
      Follows sample_sha256 sample_ops 2 sample_second ∧ ¬ SameMaps sample_second.reopen sample_second := by
  have hd := sample_first_follows.disconnect
  refine ⟨hd, fun h => ?_, hd.reopen.append (by decide) ⟨by decide, fun tx ht => ?_⟩, fun h => ?_⟩
  · exact absurd (h.by_height 1) (by decide +kernel)
  · rw [List.mem_singleton.mp ht]
    rfl
  · exact absurd (h.by_height 1) (by decide +kernel)

end ScripthashIndex

end Sample

end AvilaNode
