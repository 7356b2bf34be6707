import AvilaNode.EpochFiles
import AvilaNode.Precedence

/-! Flushes that each leave an epoch, and a restart that attaches the epochs it finds. -/

namespace AvilaNode

open CoinCodec EpochFiles Layers Precedence

namespace EpochRestart

section

variable [PublicKeys]

/-- `coinsdb/runs/` under the names `e-<seq>-<tip>`, and the layers attached, oldest first. -/
structure RunStore where
  dir : Table (ℕ × ℕ) Files
  runs : List EpochFiles.EpochLayer
  runs_seq : ℕ

namespace RunStore

def new : RunStore := ⟨∅, [], 0⟩

def flush (s : RunStore) (dirty : Delta OutPoint Coin) (undos : List UndoRow) (tip : ℕ) (delta : ℤ) :
    Except IoError RunStore :=
  let seq := s.runs_seq
  match EpochFiles.write_epoch dirty undos with
  | .error e => .error e
  | .ok files =>
    match EpochFiles.EpochLayer.open_ seq tip (some delta) files with
    | .error e => .error e
    | .ok l => .ok ⟨s.dir.insert (seq, tip) files, s.runs ++ [l], seq + 1⟩

/-- `read_dir` lists the epochs that carry a marker, in any order. -/
def scan_epochs (read_dir : List (ℕ × ℕ)) : List (ℕ × ℕ) := read_dir.insertionSort fun a b => a.2 ≤ b.2

def attach (s : RunStore) : List (ℕ × ℕ) → Except IoError RunStore
  | [] => .ok s
  | (seq, tip) :: epochs =>
    match s.dir.lookup (seq, tip) with
    | none => .error (.other "No such file or directory")
    | some files =>
      match EpochFiles.EpochLayer.open_ seq tip none files with
      | .error e => .error e
      | .ok l => attach { s with runs := s.runs ++ [l], runs_seq := max s.runs_seq (seq + 1) } epochs

def enable_runs (s : RunStore) (read_dir : List (ℕ × ℕ)) : Except IoError (ℕ × RunStore) :=
  match s.attach (scan_epochs read_dir) with
  | .error e => .error e
  | .ok s =>
    let runs := s.runs.insertionSort fun a b => a.tip ≤ b.tip
    .ok ((runs.getLast?.map EpochFiles.EpochLayer.tip).getD 0, { s with runs })

def restart (s : RunStore) (read_dir : List (ℕ × ℕ)) : Except IoError (ℕ × RunStore) :=
  enable_runs ⟨s.dir, [], 0⟩ read_dir

def probe_runs (s : RunStore) (key : RunKey) : Option (Option Coin) := newest (fun l => l.probe key) s.runs

def get (s : RunStore) (under : OutPoint → Option Coin) (op : OutPoint) : Option Coin :=
  match s.probe_runs (RunFile.outpoint_key op) with
  | some entry => entry
  | none => under op

def epoch_undo (s : RunStore) (height : ℕ) : Option BlockUndo := newest (fun l => l.undo height) s.runs

end RunStore

structure Written where
  seq : ℕ
  tip : ℕ
  dirty : Delta OutPoint Coin
  undos : List UndoRow

namespace Written

def name (w : Written) : ℕ × ℕ := (w.seq, w.tip)

def layer (w : Written) (delta : Option ℤ) : EpochFiles.EpochLayer := layer_of w.seq w.tip delta w.dirty w.undos

def undo (w : Written) (height : ℕ) : Option BlockUndo :=
  ((load_undos (w.undos.flatMap undo_record)).find? fun row => row.1 == height).map fun row => row.2.2

end Written

inductive Run : RunStore → List Written → Prop
  | start : Run .new []
  | flush {s s' : RunStore} {ws : List Written} (dirty : Delta OutPoint Coin) (undos : List UndoRow) (tip : ℕ)
    (delta : ℤ) :
    Run s ws → Sane dirty → s.flush dirty undos tip delta = .ok s' → Run s' (ws ++ [⟨s.runs_seq, tip, dirty, undos⟩])
  | restart {s s' : RunStore} {ws ws' : List Written} (read_dir : List (ℕ × ℕ)) (tip : ℕ) :
    Run s ws → read_dir.Perm s.dir.keys → s.restart read_dir = .ok (tip, s') → ws'.Perm ws →
      ws'.map Written.name = s'.runs.map (fun l => (l.seq, l.tip)) → Run s' ws'

structure Kept (s : RunStore) (ws : List Written) : Prop where
  layers : List.Forall₂ (fun l w => ∃ delta, l = w.layer delta) s.runs ws
  files : ∀ name files, s.dir.lookup name = some files ↔
    ∃ w ∈ ws, w.name = name ∧ EpochFiles.write_epoch w.dirty w.undos = .ok files
  sane : ∀ w ∈ ws, Sane w.dirty
  fresh : ∀ w ∈ ws, w.seq < s.runs_seq
  nodup : (ws.map Written.seq).Nodup

theorem Kept.new : Kept .new [] where
  layers := .nil
  files name files := by simp [RunStore.new]
  sane := by simp
  fresh := by simp
  nodup := by simp

variable {s : RunStore} {tip : ℕ} {ws : List Written}

theorem flush_eq {s : RunStore} {dirty : Delta OutPoint Coin} {undos : List UndoRow} {tip : ℕ} {delta : ℤ}
    (hs : Sane dirty) : ∃ files, EpochFiles.write_epoch dirty undos = .ok files ∧ s.flush dirty undos tip delta =
      .ok ⟨s.dir.insert (s.runs_seq, tip) files, s.runs ++ [layer_of s.runs_seq tip (some delta) dirty undos],
        s.runs_seq + 1⟩ := by
  obtain ⟨files, hwrite, hopen⟩ := write_epoch_open hs undos
  exact ⟨files, hwrite, by rw [RunStore.flush, hwrite]; simp only [hopen]⟩

theorem Kept.flush {s' : RunStore} {dirty : Delta OutPoint Coin} {undos : List UndoRow} {delta : ℤ} (h : Kept s ws)
    (hs : Sane dirty) (hflush : s.flush dirty undos tip delta = .ok s') :
    Kept s' (ws ++ [⟨s.runs_seq, tip, dirty, undos⟩]) := by
  obtain ⟨files, hwrite, heq⟩ := @flush_eq _ s dirty undos tip delta hs
  rw [heq] at hflush
  cases hflush
  refine ⟨?_, ?_, ?_, ?_, ?_⟩
  · exact List.rel_append h.layers (.cons ⟨some delta, rfl⟩ .nil)
  · intro name files'
    rw [lookup_insert_eq]
    by_cases hname : name = (s.runs_seq, tip)
    · rw [if_pos hname]
      constructor
      · intro he
        exact ⟨⟨s.runs_seq, tip, dirty, undos⟩, by simp, hname.symm, (Option.some.inj he) ▸ hwrite⟩
      · rintro ⟨w, hw, hn, hw'⟩
        rcases List.mem_append.mp hw with hw | hw
        · have := h.fresh w hw
          rw [hname] at hn
          have hseq : w.seq = s.runs_seq := congrArg Prod.fst hn
          omega
        · rw [List.mem_singleton.mp hw] at hw'
          exact congrArg some (Except.ok.inj (hwrite.symm.trans hw'))
    · rw [if_neg hname, h.files]
      constructor
      · rintro ⟨w, hw, hn, hw'⟩
        exact ⟨w, List.mem_append_left _ hw, hn, hw'⟩
      · rintro ⟨w, hw, hn, hw'⟩
        rcases List.mem_append.mp hw with hw | hw
        · exact ⟨w, hw, hn, hw'⟩
        · rw [List.mem_singleton.mp hw] at hn
          exact absurd hn.symm hname
  · intro w hw
    rcases List.mem_append.mp hw with hw | hw
    · exact h.sane w hw
    · exact (List.mem_singleton.mp hw) ▸ hs
  · intro w hw
    rcases List.mem_append.mp hw with hw | hw
    · exact (h.fresh w hw).trans (Nat.lt_succ_self _)
    · rw [List.mem_singleton.mp hw]
      exact Nat.lt_succ_self _
  · rw [List.map_append, List.nodup_append]
    refine ⟨h.nodup, by simp, fun a ha b hb => ?_⟩
    obtain ⟨w, hw, rfl⟩ := List.mem_map.mp ha
    have := h.fresh w hw
    simp only [List.map_cons, List.map_nil, List.mem_singleton] at hb
    omega

theorem attach_eq (hs : ∀ w ∈ ws, Sane w.dirty)
    (hf : ∀ w ∈ ws, ∃ files, s.dir.lookup w.name = some files ∧ EpochFiles.write_epoch w.dirty w.undos = .ok files) :
    s.attach (ws.map Written.name) = .ok ⟨s.dir, s.runs ++ ws.map fun w => w.layer none,
      ws.foldl (fun seq w => max seq (w.seq + 1)) s.runs_seq⟩ := by
  induction ws generalizing s with
  | nil => simp [RunStore.attach]
  | cons w ws ih =>
    obtain ⟨hw, hs⟩ := List.forall_mem_cons.mp hs
    obtain ⟨⟨files, hlook, hwrite⟩, hf⟩ := List.forall_mem_cons.mp hf
    obtain ⟨files', hwrite', hopen⟩ := write_epoch_open hw w.undos
    cases hwrite.symm.trans hwrite'
    rw [List.map_cons, Written.name, RunStore.attach]
    rw [Written.name] at hlook
    simp only [hlook, hopen]
    have hrest := @ih ⟨s.dir, s.runs ++ [w.layer none], max s.runs_seq (w.seq + 1)⟩ hs hf
    rw [List.append_assoc] at hrest
    exact hrest

omit [PublicKeys] in
theorem le_foldl_seq (ws : List Written) (seq : ℕ) : seq ≤ ws.foldl (fun seq w => max seq (w.seq + 1)) seq ∧
    ∀ w ∈ ws, w.seq < ws.foldl (fun seq w => max seq (w.seq + 1)) seq := by
  induction ws generalizing seq with
  | nil => simp
  | cons w ws ih =>
    obtain ⟨hle, hlt⟩ := ih (max seq (w.seq + 1))
    rw [List.foldl_cons, List.forall_mem_cons]
    exact ⟨by omega, by omega, hlt⟩

theorem Kept.names (h : Kept s ws) : (ws.map Written.name).Nodup := by
  have hseq := h.nodup
  have hfst : ws.map Written.seq = (ws.map Written.name).map Prod.fst := by rw [List.map_map]; rfl
  rw [hfst] at hseq
  exact hseq.of_map _

theorem Kept.keys (h : Kept s ws) : s.dir.keys.Perm (ws.map Written.name) := by
  refine (List.perm_ext_iff_of_nodup s.dir.keys_nodup h.names).mpr fun name => ?_
  rw [← AList.mem_keys, mem_iff_lookup, List.mem_map]
  constructor
  · rintro ⟨files, hf⟩
    obtain ⟨w, hw, hn, -⟩ := (h.files name files).mp hf
    exact ⟨w, hw, hn⟩
  · rintro ⟨w, hw, hn⟩
    obtain ⟨files, hwrite, -⟩ := write_epoch_open (h.sane w hw) w.undos
    exact ⟨files, (h.files name files).mpr ⟨w, hw, hn, hwrite⟩⟩

variable {read_dir : List (ℕ × ℕ)}

theorem Kept.listed (h : Kept s ws) (hread : read_dir.Perm s.dir.keys) : ∃ listed :
    List Written, read_dir = listed.map Written.name ∧ listed.Perm ws := by
  have hcomp := hread.trans h.keys
  rw [← congrFun (congrFun (List.eq_map_comp_perm Written.name) read_dir) ws] at hcomp
  exact hcomp

theorem Kept.restart_eq {listed : List Written} (h : Kept s ws) (hperm : listed.Perm ws) :
    ∃ tip seq, (∀ w ∈ ws, w.seq < seq) ∧ s.restart (listed.map Written.name) =
      .ok (tip, ⟨s.dir, (by_rank Written.tip listed).map fun w => w.layer none, seq⟩) := by
  have hmem : ∀ w, w ∈ by_rank Written.tip listed ↔ w ∈ ws := fun w => ((perm_by_rank listed).trans hperm).mem_iff
  have hscan : RunStore.scan_epochs (listed.map Written.name) = (by_rank Written.tip listed).map Written.name :=
    (@map_by_rank _ Prod.snd _ Written.name listed).symm
  have hattach := @attach_eq _ ⟨s.dir, [], 0⟩ (by_rank Written.tip listed) (fun w hw => h.sane w ((hmem w).mp hw))
    (fun w hw => by
      obtain ⟨files, hwrite, -⟩ := write_epoch_open (h.sane w ((hmem w).mp hw)) w.undos
      exact ⟨files, (h.files _ _).mpr ⟨w, (hmem w).mp hw, rfl, hwrite⟩, hwrite⟩)
  have hsorted : ((by_rank Written.tip listed).map fun w => w.layer none).insertionSort (fun a b => a.tip ≤ b.tip) =
      (by_rank Written.tip listed).map fun w => w.layer none := by
    refine List.Pairwise.insertionSort_eq (List.pairwise_map.mpr ?_)
    exact sorted_by_rank listed
  have hrun := RunStore.restart.eq_1 s (listed.map Written.name)
  rw [RunStore.enable_runs, hscan, hattach] at hrun
  simp only [List.nil_append] at hrun
  rw [hsorted] at hrun
  exact ⟨_, _, fun w hw => (le_foldl_seq _ 0).2 w ((hmem w).mpr hw), hrun⟩

theorem Kept.restart {s' : RunStore} {ws' : List Written} (h : Kept s ws) (hread : read_dir.Perm s.dir.keys)
    (hrestart : s.restart read_dir = .ok (tip, s')) (hperm : ws'.Perm ws)
    (hnames : ws'.map Written.name = s'.runs.map fun l => (l.seq, l.tip)) : Kept s' ws' := by
  obtain ⟨listed, rfl, hlisted⟩ := h.listed hread
  obtain ⟨tip', seq, hseq, heq⟩ := h.restart_eq hlisted
  rw [heq] at hrestart
  cases hrestart
  have hsame : ws' = by_rank Written.tip listed := by
    rw [List.map_map] at hnames
    have hinj := List.inj_on_of_nodup_map h.names
    have hlen := congrArg List.length hnames
    rw [List.length_map, List.length_map] at hlen
    refine List.ext_getElem hlen fun i hi hi' => hinj (hperm.subset (List.getElem_mem hi)) ?_ ?_
    · exact ((perm_by_rank listed).trans hlisted).subset (List.getElem_mem hi')
    · have hget := congrArg (fun names => names[i]?) hnames
      simpa [hi, hi', Written.layer, layer_of, Written.name] using hget
  refine ⟨?_, ?_, fun w hw => h.sane w (hperm.subset hw), fun w hw => hseq w (hperm.subset hw),
    (hperm.map _).nodup_iff.mpr h.nodup⟩
  · rw [← hsame, List.forall₂_map_left_iff]
    exact List.forall₂_same.mpr fun w _ => ⟨none, rfl⟩
  · intro name files
    rw [h.files]
    simp only [hperm.mem_iff]

theorem Run.kept (h : Run s ws) : Kept s ws := by
  induction h with
  | start => exact .new
  | flush dirty undos tip delta _ hs hflush ih => exact ih.flush hs hflush
  | restart read_dir tip _ hread hrestart hperm hnames ih => exact ih.restart hread hrestart hperm hnames

theorem Kept.newest_probe (h : Kept s ws) (key : RunKey) :
    s.probe_runs key = newest (fun w => (w.layer none).probe key) ws :=
  newest_forall₂ (h.layers.imp fun _ _ ⟨_, hl⟩ => hl ▸ rfl)

theorem Kept.newest_undo (h : Kept s ws) (height : ℕ) : s.epoch_undo height = newest (fun w => w.undo height) ws :=
  newest_forall₂ (h.layers.imp fun _ _ ⟨_, hl⟩ => hl ▸ rfl)

def Answers (w : Written) : Prop :=
  ∀ (delta : Option ℤ) files l, EpochFiles.write_epoch w.dirty w.undos = .ok files →
    EpochFiles.EpochLayer.open_ w.seq w.tip delta files = .ok l →
    ∀ op : OutPoint, op.vout < 2 ^ 32 → l.probe (RunFile.outpoint_key op) = w.dirty.lookup op

theorem answers_iff {w : Written} (hs : Sane w.dirty) :
    Answers w ↔ RunFile.FitsFor (fun key => key ∉ deleted w.dirty) DEFAULT_STRIDE (live w.dirty) := by
  obtain ⟨files, hwrite, hopen⟩ := write_epoch_open hs w.undos
  constructor
  · exact fun h => (probe_exact_iff hs w.seq w.tip none w.undos).mp (h none files _ hwrite (hopen _ _ _))
  · intro h delta files' l hwrite' hopen'
    cases hwrite.symm.trans hwrite'
    cases (hopen _ _ _).symm.trans hopen'
    exact (probe_exact_iff hs w.seq w.tip delta w.undos).mpr h

theorem Answers.probe {w : Written} (hs : Sane w.dirty) (h : Answers w) {op : OutPoint} (hop : op.vout < 2 ^ 32) :
    (w.layer none).probe (RunFile.outpoint_key op) = w.dirty.lookup op := by
  obtain ⟨files, hwrite, hopen⟩ := write_epoch_open hs w.undos
  exact h none files _ hwrite (hopen _ _ _) op hop

def Survives (s : RunStore) (under : OutPoint → Option Coin) : Prop :=
  ∀ read_dir : List (ℕ × ℕ), read_dir.Perm s.dir.keys → ∃ tip s', s.restart read_dir = .ok (tip, s') ∧
    (∀ op : OutPoint, op.vout < 2 ^ 32 → s'.get under op = s.get under op) ∧
    ∀ height, s'.epoch_undo height = s.epoch_undo height

/-- Every epoch answers its delta and every restart keeps every read, exactly when each run file is readable and what
the epochs of the highest tip record of an outpoint, or of a height, is what the last of them records. -/
theorem restart_survives_iff (under : OutPoint → Option Coin) (h : Run s ws) :
    (∀ w ∈ ws, Answers w) ∧ Survives s under ↔
      (∀ w ∈ ws, RunFile.FitsFor (fun key => key ∉ deleted w.dirty) DEFAULT_STRIDE (live w.dirty)) ∧
        (∀ op : OutPoint, op.vout < 2 ^ 32 → Settled Written.tip (fun w => w.dirty.lookup op) ws) ∧
        ∀ height, Settled Written.tip (fun w => w.undo height) ws := by
  have hk := h.kept
  have hfits : (∀ w ∈ ws, Answers w) ↔
      ∀ w ∈ ws, RunFile.FitsFor (fun key => key ∉ deleted w.dirty) DEFAULT_STRIDE (live w.dirty) :=
    forall₂_congr fun w hw => answers_iff (hk.sane w hw)
  rw [← hfits]
  refine and_congr_right fun hanswers => ?_
  -- what a restart reads, in terms of the deltas
  have hget : ∀ (s' : RunStore) (ws' : List Written), Kept s' ws' → ws'.Perm ws → ∀ op : OutPoint, op.vout < 2 ^ 32 →
      s'.get under op = (newest (fun w => w.dirty.lookup op) ws').getD (under op) := by
    intro s' ws' hk' hperm op hop
    have hcongr : newest (fun w => (w.layer none).probe (RunFile.outpoint_key op)) ws' =
        newest (fun w => w.dirty.lookup op) ws' :=
      newest_forall₂ (List.forall₂_same.mpr fun w hw => (hanswers w (hperm.subset hw)).probe (hk'.sane w hw) hop)
    rw [RunStore.get, hk'.newest_probe, hcongr]
    cases newest (fun w => w.dirty.lookup op) ws' <;> rfl
  have hrun : ∀ listed : List Written, listed.Perm ws →
    ∃ tip s', s.restart (listed.map Written.name) = .ok (tip, s') ∧
      Kept s' (by_rank Written.tip listed) := by
    intro listed hperm
    obtain ⟨tip, seq, -, heq⟩ := hk.restart_eq hperm
    refine ⟨tip, _, heq, hk.restart ((hperm.map _).trans hk.keys.symm) heq ((perm_by_rank listed).trans hperm) ?_⟩
    rw [List.map_map]
    rfl
  constructor
  · intro hsurvives
    have hlisted : ∀ listed : List Written, listed.Perm ws →
        (∀ op : OutPoint, op.vout < 2 ^ 32 → newest (fun w => w.dirty.lookup op) (by_rank Written.tip listed) =
          newest (fun w => w.dirty.lookup op) ws) ∧
        ∀ height, newest (fun w => w.undo height) (by_rank Written.tip listed) =
          newest (fun w => w.undo height) ws := by
      intro listed hperm
      have hsame : (by_rank Written.tip listed).Perm ws := (perm_by_rank listed).trans hperm
      obtain ⟨tip, s', heq, hk'⟩ := hrun listed hperm
      obtain ⟨tip', s'', heq', hcoins, hundos⟩ := hsurvives _ ((hperm.map _).trans hk.keys.symm)
      cases heq.symm.trans heq'
      refine ⟨fun op hop => ?_, fun height => ?_⟩
      · have hread := hcoins op hop
        rw [hget s' _ hk' hsame op hop, hget s ws hk (List.Perm.refl _) op hop] at hread
        exact newest_of_getD hsame hread
      · rw [← hk'.newest_undo, ← hk.newest_undo, hundos height]
    refine ⟨fun op hop => (newest_by_rank_iff ws).mp fun listed hperm => (hlisted listed hperm).1 op hop,
      fun height => (newest_by_rank_iff ws).mp fun listed hperm => (hlisted listed hperm).2 height⟩
  · rintro ⟨hcoins, hundos⟩ read_dir hread
    obtain ⟨listed, rfl, hperm⟩ := hk.listed hread
    obtain ⟨tip, s', heq, hk'⟩ := hrun listed hperm
    refine ⟨tip, s', heq, fun op hop => ?_, fun height => ?_⟩
    · rw [hget s' _ hk' ((perm_by_rank listed).trans hperm) op hop, hget s ws hk (List.Perm.refl _) op hop,
        (newest_by_rank_iff ws).mpr (hcoins op hop) listed hperm]
    · rw [hk'.newest_undo, hk.newest_undo, (newest_by_rank_iff ws).mpr (hundos height) listed hperm]

end

section

attribute [local instance] RunFile.PublicKeys.none

def sample_op : OutPoint := ⟨1, 0⟩

def sample_coin : Coin := ⟨⟨5, [0x51]⟩, 1, false⟩

def created : Written := ⟨0, 7, (∅ : Delta OutPoint Coin).insert sample_op (some sample_coin), []⟩

def spent (tip : ℕ) : Written := ⟨1, tip, (∅ : Delta OutPoint Coin).insert sample_op none, []⟩

theorem created_lookup (op : OutPoint) :
    created.dirty.lookup op = if op = sample_op then some (some sample_coin) else none := by
  rw [created, lookup_insert_eq]
  rfl

variable (tip : ℕ)

theorem spent_lookup (op : OutPoint) :
    (spent tip).dirty.lookup op = if op = sample_op then some none else none := by
  rw [spent, lookup_insert_eq]
  rfl

theorem created_sane : Sane created.dirty where
  vout op e h := by
    rw [created_lookup] at h
    split at h
    · rename_i hop
      rw [hop]
      decide
    · cases h
  money op c h := by
    rw [created_lookup] at h
    split at h
    · cases h
      decide
    · cases h
  small := by decide

theorem spent_sane : Sane (spent tip).dirty where
  vout op e h := by
    rw [spent_lookup] at h
    split at h
    · rename_i hop
      rw [hop]
      decide
    · cases h
  money op c h := by
    rw [spent_lookup] at h
    split at h <;> cases h
  small := by
    change RunFile.HDR + RunFile.records_bytes (RunFile.stored (live (spent 0).dirty)) < 2 ^ 63
    decide

theorem created_spent : ∃ dir, Run
    ⟨dir, [created.layer (some 1), (spent tip).layer (some (-1))], 2⟩ [created, spent tip] := by
  obtain ⟨files, -, hflush⟩ := @flush_eq _ .new created.dirty [] 7 1 created_sane
  obtain ⟨files', -, hflush'⟩ := @flush_eq _ ⟨_, _, _⟩ (spent tip).dirty [] tip (-1) (spent_sane tip)
  exact ⟨_, (Run.start.flush _ _ _ _ created_sane hflush).flush _ _ _ _ (spent_sane tip) hflush'⟩

theorem created_fits :
    RunFile.FitsFor (fun key => key ∉ deleted created.dirty) DEFAULT_STRIDE (live created.dirty) := by
  have hlive : live created.dirty = [(sample_op, sample_coin)] := by decide
  rw [hlive]
  refine ⟨?_, ?_, ?_, ?_⟩
  · rintro r hr
    rw [List.mem_singleton.mp hr]
    exact ⟨by decide, by decide⟩
  · rintro r hr
    rw [List.mem_singleton.mp hr]
    decide
  · rintro m hm
    obtain rfl : m = 0 := by simpa using hm
    decide
  · rintro m key pre body post - hm - window hread -
    obtain rfl : m = 0 := by simpa using hm.symm
    have hempty : RunFile.read_records window.length window = [] := by decide
    rw [hempty] at hread
    simp at hread

theorem spent_fits :
    RunFile.FitsFor (fun key => key ∉ deleted (spent tip).dirty) DEFAULT_STRIDE (live (spent tip).dirty) := by
  have hlive : live (spent tip).dirty = [] := by
    change live (spent 0).dirty = []
    decide
  rw [hlive]
  refine ⟨by simp, ?_, by simp, ?_⟩
  · rintro r hr
    cases hr
  · rintro m key pre body post - hm
    cases hm

theorem get_runs {dir dir' : Table (ℕ × ℕ) Files} {runs : List EpochFiles.EpochLayer} {seq seq' : ℕ}
    (under : OutPoint → Option Coin)
    (op : OutPoint) : RunStore.get ⟨dir, runs, seq⟩ under op = RunStore.get ⟨dir', runs, seq'⟩ under op := rfl

theorem restart_survives_ascending : ∃ s, Run s [created, spent 8] ∧
    (∀ w ∈ [created, spent 8], Answers w) ∧ Survives s fun _ => none := by
  obtain ⟨dir, hrun⟩ := created_spent 8
  refine ⟨_, hrun, (restart_survives_iff _ hrun).mpr ⟨?_, fun op _ => ?_, fun height => ?_⟩⟩
  · simpa using And.intro created_fits (spent_fits 8)
  · refine List.forall_mem_cons.mpr ⟨fun hrec hmax => ?_, List.forall_mem_singleton.mpr fun hrec _ => ?_⟩
    · by_cases hop : op = sample_op
      · have hspent : (spent 8).dirty.lookup op ≠ none := by simp [spent_lookup, hop]
        exact absurd (hmax (spent 8) (by simp) hspent) (by decide)
      · exact absurd (by simp [created_lookup, hop]) hrec
    · have hlast := @newest_of_last _ _ (fun w => w.dirty.lookup op) (spent 8) [] [created] hrec
        (List.forall_mem_nil _)
      exact hlast.symm
  · exact List.forall_mem_cons.mpr ⟨fun hrec _ => absurd rfl hrec,
      List.forall_mem_singleton.mpr fun hrec _ => absurd rfl hrec⟩

theorem spent_coin_returns : ∃ s, Run s [created, spent 6] ∧ ∃ read_dir : List (ℕ × ℕ), read_dir.Perm s.dir.keys ∧
    ∃ tip s', s.restart read_dir = .ok (tip, s') ∧
      s.get (fun _ => none) sample_op = none ∧ s'.get (fun _ => none) sample_op = some sample_coin := by
  obtain ⟨dir, hrun⟩ := created_spent 6
  obtain ⟨tip, seq, -, heq⟩ := hrun.kept.restart_eq (List.Perm.refl _)
  refine ⟨_, hrun, _, hrun.kept.keys.symm, tip, _, heq, ?_, ?_⟩
  · rw [@get_runs dir ∅ _ _ 0]
    decide
  · rw [@get_runs dir ∅ _ _ 0]
    decide +kernel

end

end EpochRestart

end AvilaNode
