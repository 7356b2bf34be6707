import AvilaNode.CoinsBackend

/-! Run epochs: the sorted record file a flush writes, its sparse index, and its tombstones. -/

namespace AvilaNode

open Layers

abbrev RunRecord := OutPoint × Coin

structure SortedRun where
  records : List RunRecord
  stride : ℕ

variable {dirty : Delta OutPoint Coin} {undos : List UndoRow} {seq tip : ℕ} {op : OutPoint} {delta : ℤ}
  {post : List RunRecord}

namespace SortedRun

def DEFAULT_STRIDE : ℕ := 512

/-- The greatest sampled record whose key is at most `key`, as the rest of the file from it.
Every `stride`-th record is sampled. -/
def seek (stride : ℕ) (key : OutPoint) : ℕ → List RunRecord → List RunRecord → List RunRecord
  | _, [], best => best
  | i, r :: rs, best =>
    seek stride key (i + 1) rs (if i % stride = 0 ∧ ¬ key.key_lt r.1 then r :: rs else best)

def sorted (records : List RunRecord) : Prop := records.Pairwise fun a b => a.1.key_lt b.1 = true

theorem seek_suffix (stride : ℕ) (key : OutPoint) (i : ℕ) (rs best : List RunRecord) :
    seek stride key i rs best <:+ rs ∨ seek stride key i rs best = best := by
  induction rs generalizing i best with
  | nil => exact Or.inr rfl
  | cons r rs ih =>
    rw [seek]
    split
    · rcases ih (i + 1) (r :: rs) with h | h
      · exact Or.inl (h.trans (List.suffix_cons r rs))
      · exact Or.inl (h.symm ▸ List.suffix_refl _)
    · rcases ih (i + 1) best with h | h
      · exact Or.inl (h.trans (List.suffix_cons r rs))
      · exact Or.inr h

theorem seek_after {stride i : ℕ} {key : OutPoint} {rs best : List RunRecord}
    (h : ∀ r ∈ rs, key.key_lt r.1 = true) : seek stride key i rs best = best := by
  induction rs generalizing i with
  | nil => rfl
  | cons r rs ih =>
    rw [seek, if_neg, ih fun p hp => h p (List.mem_cons_of_mem _ hp)]
    exact fun hc => hc.2 (h r List.mem_cons_self)

theorem seek_before {stride : ℕ} {key : OutPoint} {c : Coin} (all : List RunRecord) (hs : 0 < stride)
    (hpost : ∀ p ∈ post, key.key_lt p.1 = true) (pre best : List RunRecord) (i : ℕ)
    (hpre : ∀ p ∈ pre, p.1.key_lt key = true) (hall : all.drop i = pre ++ (key, c) :: post)
    (hbest : i % stride ≠ 0 → ∃ g sk, stride ∣ g ∧ all.drop g = sk ++ pre ++ (key, c) :: post ∧
      best = all.drop g ∧ sk.length = i % stride ∧ ∀ p ∈ sk, p.1.key_lt key = true) :
    ∃ g sk, stride ∣ g ∧ seek stride key i (pre ++ (key, c) :: post) best = all.drop g ∧
      all.drop g = sk ++ (key, c) :: post ∧ sk.length < stride ∧ ∀ p ∈ sk, p.1.key_lt key = true := by
  induction pre generalizing i best with
  | nil =>
    rw [List.nil_append, seek, seek_after hpost]
    by_cases hi : i % stride = 0
    · refine ⟨i, [], Nat.dvd_of_mod_eq_zero hi, ?_, by simpa using hall, hs, by simp⟩
      rw [if_pos ⟨hi, by simp [OutPoint.key_lt_irrefl]⟩, hall, List.nil_append]
    · obtain ⟨g, sk, hg, hd, hb, hl, hk⟩ := hbest hi
      refine ⟨g, sk, hg, ?_, by simpa using hd, hl ▸ Nat.mod_lt _ hs, hk⟩
      rw [if_neg (fun hc => hi hc.1), hb]
  | cons r pre ih =>
    have hr : r.1.key_lt key = true := hpre r List.mem_cons_self
    have hpre' : ∀ p ∈ pre, p.1.key_lt key = true := fun p hp => hpre p (List.mem_cons_of_mem _ hp)
    have hall' : all.drop (i + 1) = pre ++ (key, c) :: post := by
      rw [← List.drop_drop, hall]; simp
    have hmod := Nat.mod_lt i hs
    rw [List.cons_append, seek]
    by_cases hi : i % stride = 0
    · rw [if_pos ⟨hi, by simp [OutPoint.key_lt_asymm hr]⟩]
      refine ih _ (i + 1) hpre' hall' fun h1 => ⟨i, [r], Nat.dvd_of_mod_eq_zero hi, ?_, ?_, ?_, ?_⟩
      · simpa using hall
      · simpa using hall.symm
      · rw [Nat.add_mod, hi] at h1 ⊢
        rcases Nat.lt_or_ge 1 stride with h | h
        · simp [Nat.mod_eq_of_lt h]
        · have : stride = 1 := by omega
          simp [this] at h1
      · simpa using hr
    · rw [if_neg (fun hc => hi hc.1)]
      refine ih _ (i + 1) hpre' hall' fun h1 => ?_
      obtain ⟨g, sk, hg, hd, hb, hl, hk⟩ := hbest hi
      refine ⟨g, sk ++ [r], hg, by simpa using hd, hb, ?_, ?_⟩
      · rw [List.length_append, hl, List.length_singleton]
        rw [Nat.add_mod] at h1 ⊢
        rcases Nat.lt_or_ge 1 stride with h | h
        · rw [Nat.mod_eq_of_lt h] at h1 ⊢
          rcases Nat.lt_or_ge (i % stride + 1) stride with h2 | h2
          · rw [Nat.mod_eq_of_lt h2]
          · have : i % stride + 1 = stride := by omega
            simp [this] at h1
        · have : stride = 1 := by omega
          simp [this, Nat.mod_one] at h1
      · intro p hp
        rcases List.mem_append.mp hp with hp | hp
        · exact hk p hp
        · rw [List.mem_singleton] at hp
          exact hp ▸ hr

end SortedRun

def key_le (a b : OutPoint) : Bool := !b.key_lt a

theorem key_le_total (a b : OutPoint) : key_le a b = true ∨ key_le b a = true := by
  by_cases h : b.key_lt a = true
  · exact Or.inr (by simp [key_le, OutPoint.key_lt_asymm h])
  · exact Or.inl (by simpa [key_le] using h)

theorem key_le_trans {a b c : OutPoint} (hab : key_le a b = true) (hbc : key_le b c = true) :
    key_le a c = true := by
  unfold key_le at *
  rw [Bool.not_eq_true'] at *
  by_cases h : b = c
  · exact h ▸ hab
  rcases OutPoint.key_lt_total h with h | h
  · by_cases hc : c.key_lt a = true
    · rw [OutPoint.key_lt_trans h hc] at hab
      cases hab
    · simpa using hc
  · rw [h] at hbc
    cases hbc

def ordered_entries (dirty : Delta OutPoint Coin) : List (OutPoint × Option Coin) :=
  (toList dirty).insertionSort fun a b => key_le a.1 b.1 = true

theorem mem_ordered_entries {e : Option Coin} :
    (op, e) ∈ ordered_entries dirty ↔ dirty.lookup op = some e := by
  rw [ordered_entries, List.mem_insertionSort, mem_toList]

theorem ordered_entries_pairwise (dirty : Delta OutPoint Coin) :
    (ordered_entries dirty).Pairwise fun a b => a.1.key_lt b.1 = true := by
  have htotal : Std.Total fun a b : OutPoint × Option Coin => key_le a.1 b.1 = true :=
    ⟨fun a b => key_le_total a.1 b.1⟩
  have htrans : IsTrans (OutPoint × Option Coin) fun a b => key_le a.1 b.1 = true :=
    ⟨fun a b c => key_le_trans⟩
  have hle := List.pairwise_insertionSort (fun a b => key_le a.1 b.1 = true) (toList dirty)
  have hkeys : ((toList dirty).map Prod.fst).Nodup := by
    have h := dirty.nodupKeys
    rw [List.NodupKeys, List.keys] at h
    simpa [toList, List.map_map, Function.comp_def] using h
  have hne : (ordered_entries dirty).Pairwise fun a b => a.1 ≠ b.1 := by
    have hp := (List.perm_insertionSort (fun a b => key_le a.1 b.1 = true) (toList dirty)).map Prod.fst
    exact List.pairwise_map.mp (hp.nodup_iff.mpr hkeys)
  refine (hle.and hne).imp fun {a b} h => ?_
  rcases OutPoint.key_lt_total h.2 with hlt | hlt
  · exact hlt
  · simp [key_le, hlt] at h

structure EpochLayer where
  tip : ℕ
  delta : ℤ
  seq : ℕ
  run : SortedRun
  del : List OutPoint
  undos : List UndoRow

def write_epoch (seq tip : ℕ) (delta : ℤ) (dirty : Delta OutPoint Coin) (undos : List UndoRow) :
    EpochLayer :=
  let ordered := ordered_entries dirty
  { tip, delta, seq, undos
    run := ⟨ordered.filterMap fun e => e.2.map fun c => (e.1, c), SortedRun.DEFAULT_STRIDE⟩
    del := (ordered.filter fun e => e.2.isNone).map Prod.fst }

theorem mem_epoch_records {c : Coin} :
    (op, c) ∈ (write_epoch seq tip delta dirty undos).run.records ↔ dirty.lookup op = some (some c) := by
  rw [← mem_ordered_entries]
  simp only [write_epoch, ordered_entries, List.mem_filterMap, Option.map_eq_some_iff, Prod.mk.injEq]
  constructor
  · rintro ⟨⟨o, e⟩, he, w, hw, rfl, rfl⟩
    exact hw ▸ he
  · exact fun h => ⟨(op, some c), h, c, rfl, rfl, rfl⟩

theorem mem_epoch_del :
    op ∈ (write_epoch seq tip delta dirty undos).del ↔ dirty.lookup op = some none := by
  rw [← mem_ordered_entries]
  simp only [write_epoch, ordered_entries, List.mem_map, List.mem_filter, Option.isNone_iff_eq_none]
  constructor
  · rintro ⟨⟨o, e⟩, ⟨he, hn⟩, rfl⟩
    exact hn ▸ he
  · exact fun h => ⟨(op, none), ⟨h, rfl⟩, rfl⟩

theorem epoch_sorted (seq tip : ℕ) (delta : ℤ) (dirty : Delta OutPoint Coin) (undos : List UndoRow) :
    SortedRun.sorted (write_epoch seq tip delta dirty undos).run.records := by
  have h := ordered_entries_pairwise dirty
  refine List.Pairwise.filterMap _ (fun a b hab x hx y hy => ?_) h
  rw [Option.map_eq_some_iff] at hx hy
  obtain ⟨_, -, rfl⟩ := hx
  obtain ⟨_, -, rfl⟩ := hy
  exact hab

/-- What `write_epoch` guarantees of the files it leaves. -/
structure EpochLayer.Wf (l : EpochLayer) : Prop where
  stride_pos : 0 < l.run.stride
  sorted : SortedRun.sorted l.run.records
  del_records : ∀ op c, (op, c) ∈ l.run.records → op ∉ l.del

theorem write_epoch_wf (seq tip : ℕ) (delta : ℤ) (dirty : Delta OutPoint Coin) (undos : List UndoRow) :
    (write_epoch seq tip delta dirty undos).Wf where
  stride_pos := (by decide : 0 < SortedRun.DEFAULT_STRIDE)
  sorted := epoch_sorted seq tip delta dirty undos
  del_records op c h := by
    rw [mem_epoch_records] at h
    rw [mem_epoch_del, h]
    simp

variable [Platform]

def record_bytes (r : RunRecord) : ℕ := 40 + Platform.encoded_coin_len r.2

def records_bytes (rs : List RunRecord) : ℕ := (rs.map record_bytes).sum

namespace SortedRun

/-- Bytes read from the sampled record on: up to the next sampled one, and never more than
`stride * 84`. -/
def window (stride : ℕ) (rest : List RunRecord) : ℕ :=
  if rest.length ≤ stride then max (stride * 84) 84
  else max (min (stride * 84) (records_bytes (rest.take stride))) 84

def scan_window (key : OutPoint) : ℕ → List RunRecord → Option Coin
  | _, [] => none
  | cap, r :: rs =>
    if cap < record_bytes r then none
    else if r.1 = key then some r.2
    else if key.key_lt r.1 then none
    else scan_window key (cap - record_bytes r) rs

def get_key (run : SortedRun) (key : OutPoint) : Option Coin :=
  let rest := seek run.stride key 0 run.records []
  scan_window key (window run.stride rest) rest

def iter (run : SortedRun) : List RunRecord := run.records

def windowed (run : SortedRun) : Prop :=
  ∀ g, run.stride ∣ g → records_bytes ((run.records.drop g).take run.stride) ≤ run.stride * 84

variable {key : OutPoint} {c : Coin}

theorem scan_window_mem {cap : ℕ} {rs : List RunRecord} (h : scan_window key cap rs = some c) : (key, c) ∈ rs := by
  induction rs generalizing cap with
  | nil => cases h
  | cons r rs ih =>
    rw [scan_window] at h
    split at h
    · cases h
    split at h
    · rename_i hk
      cases h
      exact hk ▸ List.mem_cons_self
    · split at h
      · cases h
      · exact List.mem_cons_of_mem _ (ih h)

variable {run : SortedRun}

theorem get_key_mem (h : run.get_key key = some c) : (key, c) ∈ run.records := by
  have hm := scan_window_mem h
  rcases seek_suffix run.stride key 0 run.records [] with hs | hs
  · exact hs.subset hm
  · rw [hs] at hm
    cases hm

theorem scan_window_skip (sk : List RunRecord) (cap : ℕ) (hsk : ∀ p ∈ sk, p.1.key_lt key = true)
    (hcap : records_bytes sk + record_bytes (key, c) ≤ cap) :
    scan_window key cap (sk ++ (key, c) :: post) = some c := by
  induction sk generalizing cap with
  | nil =>
    have : ¬ cap < record_bytes (key, c) := by simp [records_bytes] at hcap; omega
    simp [scan_window, this]
  | cons r sk ih =>
    have hr := hsk r List.mem_cons_self
    have hsum : records_bytes (r :: sk) = record_bytes r + records_bytes sk := by simp [records_bytes]
    have hne : r.1 ≠ key := fun h => by simp [h, OutPoint.key_lt_irrefl] at hr
    rw [List.cons_append, scan_window, if_neg (by omega), if_neg hne,
      if_neg (by simp [OutPoint.key_lt_asymm hr])]
    exact ih _ (fun p hp => hsk p (List.mem_cons_of_mem _ hp)) (by omega)

theorem get_key_of_mem (hs : 0 < run.stride) (hsort : sorted run.records) (hw : run.windowed)
    (hm : (key, c) ∈ run.records) :
    run.get_key key = some c := by
  obtain ⟨pre, post, hall⟩ := List.append_of_mem hm
  have hp : sorted (pre ++ (key, c) :: post) := hall ▸ hsort
  rw [sorted, List.pairwise_append, List.pairwise_cons] at hp
  have hpre : ∀ p ∈ pre, p.1.key_lt key = true := fun p hp' => hp.2.2 p hp' _ List.mem_cons_self
  obtain ⟨g, sk, hg, hseek, hd, hl, hk⟩ := seek_before run.records hs hp.2.1.1 pre [] 0 hpre
    (by simpa using hall) (by simp)
  have htake : (run.records.drop g).take run.stride =
      sk ++ (key, c) :: post.take (run.stride - sk.length - 1) := by
    obtain ⟨d, hd'⟩ : ∃ d, run.stride - sk.length = d + 1 := ⟨run.stride - sk.length - 1, by omega⟩
    rw [hd, List.take_append, List.take_of_length_le (by omega), hd', List.take_succ_cons]
    rfl
  have hbytes : records_bytes sk + record_bytes (key, c) ≤
      records_bytes ((run.records.drop g).take run.stride) := by
    rw [htake]; simp [records_bytes]
  have hcap : records_bytes ((run.records.drop g).take run.stride) ≤ window run.stride (run.records.drop g) := by
    have := hw g hg
    unfold window
    split <;> omega
  unfold get_key
  rw [hall, hseek] at *
  rw [hd]
  exact scan_window_skip sk _ hk (by rw [hd] at hcap hbytes; omega)

end SortedRun

namespace EpochLayer

/-- `some (some coin)` a live record, `some none` a deletion, `none` the next-older layer. -/
def probe (l : EpochLayer) (key : OutPoint) : Option (Option Coin) :=
  if key ∈ l.del then some none
  else
    match l.run.get_key key with
    | some c => some (some c)
    | none => none

def undo (l : EpochLayer) (height : ℕ) : Option BlockUndo :=
  (l.undos.find? fun row => row.1 == height).map fun row => row.2.2

end EpochLayer

theorem probe_write_epoch_cases (seq tip : ℕ) (delta : ℤ) (dirty : Delta OutPoint Coin)
    (undos : List UndoRow) (op : OutPoint) :
    (write_epoch seq tip delta dirty undos).probe op = dirty.lookup op ∨
      ((write_epoch seq tip delta dirty undos).probe op = none ∧ ∃ c, dirty.lookup op = some (some c)) := by
  unfold EpochLayer.probe
  by_cases h : op ∈ (write_epoch seq tip delta dirty undos).del
  · rw [if_pos h, mem_epoch_del.mp h]
    exact Or.inl rfl
  rw [if_neg h]
  rw [mem_epoch_del] at h
  split
  · rename_i c hc
    exact Or.inl (mem_epoch_records.mp (SortedRun.get_key_mem hc)).symm
  rename_i hc
  cases hd : dirty.lookup op with
  | none => exact Or.inl rfl
  | some e =>
    cases e with
    | none => exact absurd hd h
    | some c => exact Or.inr ⟨rfl, c, rfl⟩

theorem probe_write_epoch (hw : (write_epoch seq tip delta dirty undos).run.windowed) (op : OutPoint) :
    (write_epoch seq tip delta dirty undos).probe op = dirty.lookup op := by
  rcases probe_write_epoch_cases seq tip delta dirty undos op with h | ⟨h, c, hc⟩
  · exact h
  have hg := SortedRun.get_key_of_mem (by decide : 0 < SortedRun.DEFAULT_STRIDE)
    (epoch_sorted seq tip delta dirty undos) hw (mem_epoch_records.mpr hc)
  have hd := (write_epoch_wf seq tip delta dirty undos).del_records op c (mem_epoch_records.mpr hc)
  rw [EpochLayer.probe, if_neg hd, hg] at h
  cases h

def probe_runs (runs : List EpochLayer) (key : OutPoint) : Option (Option Coin) :=
  runs.reverse.findSome? fun l => l.probe key

theorem probe_runs_append (runs : List EpochLayer) (l : EpochLayer) (key : OutPoint) :
    probe_runs (runs ++ [l]) key = (l.probe key).or (probe_runs runs key) := by
  unfold probe_runs
  rw [List.reverse_append, List.reverse_singleton, List.singleton_append, List.findSome?_cons]
  cases l.probe key <;> rfl

end AvilaNode
