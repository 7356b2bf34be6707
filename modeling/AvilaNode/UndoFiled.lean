import AvilaNode.ChainFrames
import AvilaNode.Election

/-! Where the undo records of the active chain are: in the rows the coins set stores up to the watermark,
in the tail in memory above it. -/

namespace AvilaNode

open Layers UtxoSet

section

variable [Platform]

namespace UtxoSet

omit [Platform] in
theorem run_worker_tip (s : UtxoSet) :
    s.run_worker.flush_join.map FlushJob.tip = s.flush_join.map FlushJob.tip := by
  rcases run_worker_cases s with he | ⟨job, hj, -, ⟨seq, -, he⟩ | ⟨-, be, be', -, -, he⟩ | ⟨-, e, he⟩⟩
  · rw [he]
  all_goals
    rw [he, hj]
    rfl

omit [Platform] in
theorem run_worker_floor {s : UtxoSet} {floor : Option (ℕ × BlockHash)}
    (h : ∀ be, s.backend = some be → be.undo_floor = floor) :
    ∀ be, s.run_worker.backend = some be → be.undo_floor = floor := by
  intro be hbe
  rcases run_worker_cases s with he | ⟨job, -, -, ⟨seq, -, he⟩ | ⟨-, old, new, ho, hc, he⟩ | ⟨-, e, he⟩⟩
  · rw [he] at hbe
    exact h be hbe
  · rw [he] at hbe
    exact h be hbe
  · rw [he] at hbe
    cases hbe
    rw [CoinsBackend.commit_floor hc]
    exact h old ho
  · rw [he] at hbe
    exact h be hbe

theorem Ok.join_flush_backend {s t : UtxoSet} (h : Ok s) (hj : s.join_flush = (.ok (), t)) :
    t.backend = s.run_worker.backend := by
  rcases join_flush_cases hj with ⟨hn, rfl⟩ | ⟨job, hwj, hl⟩ | ⟨job, layer, -, -, ⟨epoch, -, rfl⟩ | ⟨-, ht⟩⟩
  · have hidle : t.flush_join = none := (h.join_flush hj).idle
    simp [UtxoSet.run_worker, hidle]
  · have := h.run_worker.1.layers.job_layer
    rw [hwj, (run_worker_same s).flushing, hl] at this
    cases this
  · rfl
  · obtain ⟨clean, hclean⟩ := promote_warm_eq
      { s.run_worker with
        flush_join := none, flushing := none
        flat := s.run_worker.flat.map fun f => applyDelta f layer.snap } layer.warm
    rw [ht, hclean]

theorem flush_owned_idle {s : UtxoSet} (hidle : s.flush_join = none) (hbacked : s.backend.isSome)
    (rows : List UndoRow) (tip : ℕ) : ∃ t job, s.flush_to_backend_owned rows tip = (.ok (), t) ∧
      t.backend = s.backend ∧ t.runs = s.runs ∧ t.flush_join = some job ∧ job.tip = tip ∧ job.result = none := by
  have hjoin : s.join_flush = (.ok (), s) := by
    simp [UtxoSet.join_flush, UtxoSet.run_worker, hidle]
  have hbe : s.backend.isNone = false := by simpa [Option.isSome_iff_ne_none] using hbacked
  unfold UtxoSet.flush_to_backend_owned
  rw [hjoin, hbe]
  exact ⟨_, _, rfl, rfl, rfl, rfl, rfl, rfl⟩

end UtxoSet

def Connection.Above (c : Connection) : Prop :=
  c.undo_base ≤ c.fork_height ∧ ∀ tip ∈ c.flush_target, tip ≤ c.fork_height

namespace Chainstate

def record_undo (s : Chainstate) (height : ℕ) : Option BlockUndo :=
  (s.records[height - 1]?).map BlockRecord.undo

def undo_start (s : Chainstate) : ℕ :=
  max (s.snapshot_base.getD 0) ((s.undo_floor.map Prod.fst).getD 0)

/-- The invariant: the tail is that of the active blocks above the watermark, and below it the rows stored,
now and once the commit in flight is joined, are those of the active blocks. -/
structure Filed (s : Chainstate) : Prop where
  coins : Ok s.utxo
  recorded : ∃ genesis, s.chain = genesis :: s.records.map BlockRecord.hash
  made : ∀ r ∈ s.records, r.Made
  tail : s.undos = (s.records.drop s.undo_base).map BlockRecord.undo
  floor : ∀ be, s.utxo.backend = some be → be.undo_floor = s.undo_floor
  floor_le : ∀ f, s.undo_floor = some f → f.1 ≤ s.records.length
  flight : s.inflight_flush.map Prod.fst = s.utxo.flush_join.map FlushJob.tip
  landed : ∀ job e, s.utxo.flush_join = some job → job.result ≠ some (.error e)
  flight_floor : ∀ job f, s.utxo.flush_join = some job → s.undo_floor = some f → f.1 ≤ job.tip
  flight_low : ∀ job, s.utxo.flush_join = some job → job.tip < s.undo_base → s.records.length ≤ job.tip
  stored : ∀ height, s.undo_start < height → height ≤ s.undo_base → height ≤ s.records.length →
    s.utxo.stored height = s.record_undo height
  joined : ∀ job height, s.utxo.flush_join = some job → s.undo_start < height → height ≤ job.tip →
    height ≤ s.records.length → s.utxo.joined height = s.record_undo height

variable {s t : Chainstate} {height fork_height : ℕ} {utxo : UtxoSet}

theorem Filed.length (h : Filed s) : s.chain.length = s.records.length + 1 := by
  obtain ⟨genesis, hchain⟩ := h.recorded
  simp [hchain]

theorem Filed.tip_height (h : Filed s) : s.tip_height = s.records.length := by
  have := h.length
  unfold Chainstate.tip_height
  omega

structure Sound (s : Chainstate) : Prop where
  coins : Ok s.utxo
  rooted : s.chain ≠ []
  floor : ∀ be, s.utxo.backend = some be → be.undo_floor = s.undo_floor
  floor_le : ∀ f, s.undo_floor = some f → f.1 ≤ s.tip_height
  landed : ∀ job e, s.utxo.flush_join = some job → job.result ≠ some (.error e)
  flight_floor : ∀ job f, s.utxo.flush_join = some job → s.undo_floor = some f → f.1 ≤ job.tip

theorem Filed.sound (h : Filed s) : Sound s where
  coins := h.coins
  rooted := by
    obtain ⟨genesis, hchain⟩ := h.recorded
    simp [hchain]
  floor := h.floor
  floor_le f hf := h.tip_height ▸ h.floor_le f hf
  landed := h.landed
  flight_floor := h.flight_floor

theorem Sound.accepted (h : Sound s) : Accepted s.utxo where
  accepted job be hj _ _ hbe := by
    unfold CoinsBackend.ensure_tip_respects_floor
    rw [h.floor be hbe]
    cases hf : s.undo_floor with
    | none => rfl
    | some f =>
      have := h.flight_floor job f hj hf
      exact if_neg (by omega)
  landed := h.landed

theorem Sound.land (h : Sound s) : Sound { s with utxo := s.utxo.run_worker } where
  coins := h.coins.run_worker.1
  rooted := h.rooted
  floor := run_worker_floor h.floor
  floor_le := h.floor_le
  landed job e hj := by
    rcases h.coins.run_worker_result h.accepted hj with hr | ⟨epoch, hr⟩ <;> simp [hr]
  flight_floor job f hj hf := by
    have hmap := run_worker_tip s.utxo
    rw [hj] at hmap
    obtain ⟨old, ho, heq⟩ := Option.map_eq_some_iff.mp hmap.symm
    rw [← heq]
    exact h.flight_floor old f ho hf

theorem Sound.joined (h : Sound s) : ∃ utxo, s.utxo.join_flush = (.ok (), utxo) ∧ Joined s.utxo utxo ∧
    ∀ be, utxo.backend = some be → be.undo_floor = s.undo_floor := by
  obtain ⟨utxo, hj⟩ := h.coins.join_flush_ok h.accepted
  refine ⟨utxo, hj, h.coins.join_flush hj, ?_⟩
  rw [h.coins.join_flush_backend hj]
  exact run_worker_floor h.floor

omit [Platform] in
theorem record_undo_isSome (hpos : 0 < height) (hle : height ≤ s.records.length) :
    ∃ undo, s.record_undo height = some undo := by
  have hlt : height - 1 < s.records.length := by omega
  exact ⟨_, by rw [record_undo, List.getElem?_eq_getElem hlt, Option.map_some]⟩

theorem Filed.undo_eq (h : Filed s) (hlow : s.undo_start < height) (hle : height ≤ s.tip_height) : s.undo height =
    s.record_undo height := by
  rw [h.tip_height] at hle
  unfold undo undo_through
  rw [if_neg (by omega)]
  split
  · rename_i hbase
    exact h.stored height hlow hbase hle
  · rename_i hbase
    rw [h.tail, record_undo, List.getElem?_map, List.getElem?_drop]
    congr 2
    omega

omit [Platform] in
theorem undo_base_congr (hb : t.utxo.backend.isSome = s.utxo.backend.isSome)
    (hc : t.committed_coins_tip = s.committed_coins_tip) : t.undo_base = s.undo_base := by
  unfold undo_base
  rw [hb, hc]

/-- A step that keeps the records up to a height, and makes no new one at a height where the coins set stores
one or is about to. -/
structure Reshaped (s t : Chainstate) (keep : ℕ) : Prop where
  coins : CoinsKept s.utxo t.utxo
  committed_coins_tip : t.committed_coins_tip = s.committed_coins_tip
  inflight_flush : t.inflight_flush = s.inflight_flush
  undo_floor : t.undo_floor = s.undo_floor
  snapshot_base : t.snapshot_base = s.snapshot_base
  keep_le : keep ≤ s.records.length
  agree : t.records.take keep = s.records.take keep
  above : ∀ height, keep < height → height ≤ t.records.length →
    s.undo_base < height ∧ ∀ job, s.utxo.flush_join = some job → job.tip < height
  recorded : ∃ genesis, t.chain = genesis :: t.records.map BlockRecord.hash
  made : ∀ r ∈ t.records, r.Made
  tail : t.undos = (t.records.drop s.undo_base).map BlockRecord.undo
  floor_le : ∀ f, s.undo_floor = some f → f.1 ≤ t.records.length

theorem Filed.reshaped (h : Filed s) {keep : ℕ} (r : Reshaped s t keep) : Filed t := by
  have same := r.coins.same.same
  have hbase : t.undo_base = s.undo_base := undo_base_congr (by rw [same.backend]) r.committed_coins_tip
  have hstart : t.undo_start = s.undo_start := by rw [undo_start, r.snapshot_base, r.undo_floor, undo_start]
  have hkeep := r.keep_le
  have hrec : ∀ height, 0 < height → height ≤ keep → t.record_undo height = s.record_undo height := by
    intro height hpos hle
    have hlt : height - 1 < keep := by omega
    unfold record_undo
    rw [← List.getElem?_take_of_lt hlt, r.agree, List.getElem?_take_of_lt hlt]
  constructor
  · exact r.coins.ok
  · exact r.recorded
  · exact r.made
  · rw [hbase]
    exact r.tail
  · rw [same.backend, r.undo_floor]
    exact h.floor
  · rw [r.undo_floor]
    exact r.floor_le
  · rw [r.inflight_flush, same.flush_join]
    exact h.flight
  · rw [same.flush_join]
    exact h.landed
  · rw [same.flush_join, r.undo_floor]
    exact h.flight_floor
  · rw [same.flush_join, hbase]
    intro job hj hlt
    have htip := h.flight_low job hj hlt
    by_contra hlong
    obtain ⟨-, hjob⟩ := r.above t.records.length (by omega) le_rfl
    obtain ⟨hb, -⟩ := r.above (keep + 1) (by omega) (by omega)
    omega
  · rw [same.stored, hstart, hbase]
    intro height hlow hle htip
    have hheight : height ≤ keep := by
      by_contra hgt
      have := (r.above height (by omega) htip).1
      omega
    rw [hrec height (by omega) hheight]
    exact h.stored height hlow hle (by omega)
  · rw [same.joined, same.flush_join, hstart]
    intro job height hj hlow hle htip
    have hheight : height ≤ keep := by
      by_contra hgt
      have := (r.above height (by omega) htip).2 job hj
      omega
    rw [hrec height (by omega) hheight]
    exact h.joined job height hj hlow hle (by omega)

structure Quiet (s t : Chainstate) : Prop where
  coins : CoinsKept s.utxo t.utxo
  chain : t.chain = s.chain
  undos : t.undos = s.undos
  records : t.records = s.records
  committed_coins_tip : t.committed_coins_tip = s.committed_coins_tip
  inflight_flush : t.inflight_flush = s.inflight_flush
  undo_floor : t.undo_floor = s.undo_floor
  snapshot_base : t.snapshot_base = s.snapshot_base

theorem Filed.quiet (h : Filed s) (q : Quiet s t) : Filed t := by
  have r : Reshaped s t s.records.length := by
    refine ⟨q.coins, q.committed_coins_tip, q.inflight_flush, q.undo_floor, q.snapshot_base, le_rfl, ?_, ?_, ?_, ?_,
      ?_, ?_⟩
    · rw [q.records]
    · intro height hgt hle
      rw [q.records] at hle
      omega
    · rw [q.chain, q.records]
      exact h.recorded
    · rw [q.records]
      exact h.made
    · rw [q.undos, q.records]
      exact h.tail
    · rw [q.records]
      exact h.floor_le
  exact h.reshaped r

theorem Filed.pop (h : Filed s) (hk : CoinsKept s.utxo utxo) (hpos : 0 < s.records.length)
    (hfloor : ∀ f, s.undo_floor = some f → f.1 ≤ s.records.length - 1) (hash : BlockHash) :
    Filed (s.pop_tip hash utxo) := by
  have hlen : (s.pop_tip hash utxo).records.length = s.records.length - 1 := List.length_dropLast
  have r : Reshaped s (s.pop_tip hash utxo) (s.records.length - 1) := by
    refine ⟨hk, rfl, rfl, rfl, rfl, Nat.sub_le _ _, ?_, ?_, ?_, ?_, ?_, ?_⟩
    · rw [show (s.pop_tip hash utxo).records = s.records.dropLast from rfl, List.dropLast_eq_take, List.take_take,
        min_self]
    · omega
    · obtain ⟨genesis, hchain⟩ := h.recorded
      refine ⟨genesis, ?_⟩
      change s.chain.dropLast = genesis :: s.records.dropLast.map BlockRecord.hash
      rw [hchain, List.dropLast_cons_of_ne_nil (by simpa using List.length_pos_iff.mp hpos), List.map_dropLast]
    · intro r hr
      exact h.made r (List.dropLast_subset _ hr)
    · change s.undos.take (s.tip_height - 1 - s.undo_base) =
        (s.records.dropLast.drop s.undo_base).map BlockRecord.undo
      rw [h.tail, h.tip_height, List.dropLast_eq_take, ← List.map_take, List.drop_take]
    · intro f hf
      have := hfloor f hf
      omega
  exact h.reshaped r

variable {parts : List (BlockRecord × BlockReceipt)} {r : Except ConnectError Unit}

theorem Filed.rewind_step (h : Filed s) (hfloor : ∀ f, s.undo_floor = some f → f.1 ≤ s.records.length - 1)
    (ht : s.rewind_step = (r, t)) :
    Filed t ∧ (r = .ok () → t.records.length = s.records.length - 1 ∧ t.undo_floor = s.undo_floor) := by
  unfold Chainstate.rewind_step at ht
  split at ht
  · cases ht
    exact ⟨h, nofun⟩
  rename_i hash _
  split at ht
  · cases ht
    exact ⟨h, nofun⟩
  rename_i block _
  split at ht
  · cases ht
    exact ⟨h, nofun⟩
  rename_i undo hundo
  have hk := disconnect_kept block h.coins undo
  have hpos : 0 < s.records.length := by
    rw [← h.tip_height]
    by_contra hz
    rw [show s.tip_height = 0 by omega] at hundo
    cases hundo
  split at ht
  · rename_i utxo hd
    rw [hd] at hk
    cases ht
    exact ⟨h.quiet ⟨hk, rfl, rfl, rfl, rfl, rfl, rfl, rfl⟩, nofun⟩
  · rename_i utxo hd
    rw [hd] at hk
    cases ht
    exact ⟨h.pop hk hpos hfloor hash, fun _ => ⟨List.length_dropLast, rfl⟩⟩

theorem Filed.rewind_loop {steps : ℕ} (h : Filed s)
    (hfloor : ∀ f, s.undo_floor = some f → f.1 ≤ s.records.length - steps) :
    Filed (rewind_loop steps s).2 := by
  induction steps generalizing s with
  | zero => exact h
  | succ steps ih =>
    rw [Chainstate.rewind_loop]
    split
    · rename_i e t ht
      exact (h.rewind_step (fun f hf => (hfloor f hf).trans (by omega)) ht).1
    rename_i t ht
    obtain ⟨hf, hok⟩ := h.rewind_step (fun f hf => (hfloor f hf).trans (by omega)) ht
    obtain ⟨hlen, hfl⟩ := hok rfl
    apply ih hf
    intro f hf'
    have := hfloor f (hfl ▸ hf')
    omega

structure Resting (s : Chainstate) : Prop where
  coins : Ok s.utxo
  recorded : ∃ genesis, s.chain = genesis :: s.records.map BlockRecord.hash
  made : ∀ r ∈ s.records, r.Made
  tail : s.undos = (s.records.drop s.undo_base).map BlockRecord.undo
  floor : ∀ be, s.utxo.backend = some be → be.undo_floor = s.undo_floor
  floor_le : ∀ f, s.undo_floor = some f → f.1 ≤ s.records.length
  settled : s.inflight_flush = none
  idle : s.utxo.flush_join = none
  stored : ∀ height, s.undo_start < height → height ≤ s.undo_base → height ≤ s.records.length →
    s.utxo.stored height = s.record_undo height

theorem Resting.filed (h : Resting s) : Filed s := by
  have hidle : ∀ job, s.utxo.flush_join ≠ some job := by simp [h.idle]
  refine ⟨h.coins, h.recorded, h.made, h.tail, h.floor, h.floor_le, ?_, ?_, ?_, ?_, h.stored, ?_⟩
  · rw [h.settled, h.idle]
    rfl
  · intro job e hj
    exact (hidle job hj).elim
  · intro job f hj
    exact (hidle job hj).elim
  · intro job hj
    exact (hidle job hj).elim
  · intro job height hj
    exact (hidle job hj).elim

theorem Filed.join (h : Filed s) : ∃ t, s.join_coins_flush = (.ok (), t) ∧ Resting t ∧
    t.utxo.backend.isSome = s.utxo.backend.isSome ∧ t.records = s.records := by
  obtain ⟨utxo, hj, hjoined, hfloor⟩ := h.sound.joined
  have hflight := h.flight
  unfold join_coins_flush
  rw [hj]
  cases hi : s.inflight_flush with
  | none =>
    rw [hi] at hflight
    have hidle : s.utxo.flush_join = none := by simpa using hflight.symm
    have hbase : undo_base { s with utxo } = s.undo_base := undo_base_congr hjoined.backend rfl
    refine ⟨{ s with utxo }, by rw [hi], ?_, hjoined.backend, rfl⟩
    refine ⟨hjoined.ok, h.recorded, h.made, ?_, hfloor, h.floor_le, hi, hjoined.idle, ?_⟩
    · rw [hbase]
      exact h.tail
    · rw [hbase, h.coins.stored_join hj, joined_idle hidle]
      exact h.stored
  | some flight =>
    obtain ⟨tip, len⟩ := flight
    rw [hi] at hflight
    obtain ⟨job, hjob, rfl⟩ := Option.map_eq_some_iff.mp hflight.symm
    have hbacked : s.utxo.backend.isSome := h.coins.layers.job_backend (by rw [hjob]; rfl)
    have hold : s.undo_base = s.committed_coins_tip := if_pos hbacked
    have hnew : undo_base { s with utxo, committed_coins_tip := job.tip } = job.tip :=
      if_pos (hjoined.backend.trans hbacked)
    refine ⟨_, rfl, ?_, hjoined.backend, rfl⟩
    refine ⟨hjoined.ok, h.recorded, h.made, ?_, hfloor, h.floor_le, rfl, hjoined.idle, ?_⟩
    · change s.undos.drop (min (job.tip - s.committed_coins_tip) s.undos.length) =
        (s.records.drop (undo_base { s with utxo, committed_coins_tip := job.tip })).map BlockRecord.undo
      have hlow := h.flight_low job hjob
      rw [hnew, ← List.drop_eq_drop_min, h.tail, ← List.map_drop, List.drop_drop]
      rw [hold] at hlow ⊢
      by_cases hle : s.committed_coins_tip ≤ job.tip
      · congr 2
        omega
      · have := hlow (by omega)
        rw [List.drop_eq_nil_of_le (by omega), List.drop_eq_nil_of_le (by omega)]
    · change ∀ height, s.undo_start < height →
        height ≤ undo_base { s with utxo, committed_coins_tip := job.tip } → height ≤ s.records.length →
          utxo.stored height = s.record_undo height
      rw [hnew, h.coins.stored_join hj]
      intro height hlow hle hlen
      exact h.joined job height hjob hlow hle hlen

omit [Platform] in
theorem mem_tail_rows (h : s.undos = (s.records.drop s.undo_base).map BlockRecord.undo) {undo : BlockUndo}
    (hpos : 0 < height) (hu : s.record_undo height = some undo) :
    RowsAgree s.tail_rows height undo ∧ (s.undo_base < height → ∃ row ∈ s.tail_rows, row.1 = height) := by
  have hget : ∀ i, s.undos[i]? = s.record_undo (s.undo_base + 1 + i) := by
    intro i
    rw [h, record_undo, List.getElem?_map, List.getElem?_drop]
    congr 2
    omega
  unfold tail_rows
  constructor
  · rintro row hr rfl
    obtain ⟨i, hi, rfl⟩ := List.mem_mapIdx.mp hr
    have := hget i
    rw [List.getElem?_eq_getElem hi, hu] at this
    exact Option.some.inj this
  · intro hlt
    have hi := hget (height - s.undo_base - 1)
    rw [show s.undo_base + 1 + (height - s.undo_base - 1) = height by omega, hu] at hi
    obtain ⟨hlen, -⟩ := List.getElem?_eq_some_iff.mp hi
    exact ⟨_, List.mem_mapIdx.mpr ⟨_, hlen, rfl⟩, by simp only; omega⟩

theorem Resting.flush (h : Resting s) (hbacked : s.utxo.backend.isSome) :
    ∃ utxo, s.utxo.flush_to_backend_owned s.tail_rows s.records.length = (.ok (), utxo) ∧
      ∀ len, Filed { s with utxo, inflight_flush := some (s.records.length, len) } := by
  obtain ⟨utxo, job, hf, hback, hruns, hjob, htip, hres⟩ :=
    flush_owned_idle h.idle hbacked s.tail_rows s.records.length
  obtain ⟨be, hbe⟩ := Option.isSome_iff_exists.mp hbacked
  have haccept : be.ensure_tip_respects_floor (some s.records.length) = .ok () := by
    unfold CoinsBackend.ensure_tip_respects_floor
    rw [h.floor be hbe]
    cases hfl : s.undo_floor with
    | none => rfl
    | some f =>
      have := h.floor_le f hfl
      exact if_neg (by omega)
  have hjoined : ∀ height, s.undo_start < height → height ≤ s.records.length →
      utxo.joined height = s.record_undo height := by
    intro height hlow hle
    obtain ⟨undo, hu⟩ := record_undo_isSome (by omega) hle
    obtain ⟨hagree, hrow⟩ := mem_tail_rows h.tail (by omega) hu
    rw [hu]
    apply h.coins.joined_flush h.idle hbe hf haccept hle hagree
    by_cases hbase : height ≤ s.undo_base
    · right
      rw [h.stored height hlow hbase hle, hu]
    · exact Or.inl (hrow (by omega))
  have hstored : utxo.stored = s.utxo.stored := by
    funext height
    rw [UtxoSet.stored, hruns, hback, UtxoSet.stored]
  refine ⟨utxo, hf, fun len => ?_⟩
  have hbase : undo_base { s with utxo, inflight_flush := some (s.records.length, len) } = s.undo_base :=
    undo_base_congr (by rw [← hback]) rfl
  have hone : ∀ j, utxo.flush_join = some j → j.tip = s.records.length ∧ j.result = none := by
    intro j hj
    obtain rfl := Option.some.inj (hjob.symm.trans hj)
    exact ⟨htip, hres⟩
  refine ⟨(h.coins.flush_to_backend_owned hf).1, h.recorded, h.made, ?_, ?_, h.floor_le, ?_, ?_, ?_, ?_, ?_, ?_⟩
  · rw [hbase]
    exact h.tail
  · change ∀ be, utxo.backend = some be → be.undo_floor = s.undo_floor
    rw [hback]
    exact h.floor
  · change some s.records.length = utxo.flush_join.map FlushJob.tip
    rw [hjob, Option.map_some, htip]
  · intro j e hj
    simp [(hone j hj).2]
  · intro j f hj hfl
    rw [(hone j hj).1]
    exact h.floor_le f hfl
  · intro j hj _
    exact (hone j hj).1.ge
  · rw [hbase]
    change ∀ height, s.undo_start < height → height ≤ s.undo_base → height ≤ s.records.length →
      utxo.stored height = s.record_undo height
    rw [hstored]
    exact h.stored
  · intro j height hj hlow hle hlen
    exact hjoined height hlow hlen

theorem Filed.flush (h : Filed s) : Filed (s.flush_coins_with [] s.tip_height).2 := by
  unfold flush_coins_with
  split
  · exact h
  rename_i hbe
  obtain ⟨t, hj, hr, hbacked, hrecords⟩ := h.join
  have hsome : t.utxo.backend.isSome := by
    rw [hbacked]
    simpa [Option.isSome_iff_ne_none] using hbe
  obtain ⟨utxo, hf, hfiled⟩ := hr.flush hsome
  rw [hj, h.tip_height, ← hrecords]
  dsimp only [List.nil_append]
  rw [hf]
  exact hfiled _

theorem Filed.land (h : Filed s) : Filed { s with utxo := s.utxo.run_worker } := by
  have hbase : undo_base { s with utxo := s.utxo.run_worker } = s.undo_base :=
    undo_base_congr (run_worker_same s.utxo).backend rfl
  have htip : ∀ job, s.utxo.run_worker.flush_join = some job →
      ∃ old, s.utxo.flush_join = some old ∧ old.tip = job.tip := by
    intro job hj
    have hmap := run_worker_tip s.utxo
    rw [hj] at hmap
    exact Option.map_eq_some_iff.mp hmap.symm
  have hland := h.sound.land
  refine ⟨hland.coins, h.recorded, h.made, ?_, hland.floor, h.floor_le, ?_, hland.landed, hland.flight_floor, ?_, ?_,
    ?_⟩
  · rw [hbase]
    exact h.tail
  · exact h.flight.trans (run_worker_tip s.utxo).symm
  · rw [hbase]
    intro job hj hlt
    obtain ⟨old, ho, heq⟩ := htip job hj
    rw [← heq] at hlt ⊢
    exact h.flight_low old ho hlt
  · rw [hbase]
    intro height hlow hle hlen
    change height ≤ s.records.length at hlen
    have hs := h.stored height hlow hle hlen
    change s.utxo.run_worker.stored height = s.record_undo height
    rcases stored_run_worker s.utxo height with he | he
    · rw [he, hs]
    rw [he]
    cases hj : s.utxo.flush_join with
    | none => rw [joined_idle hj, hs]
    | some job =>
      have := h.flight_low job hj
      exact h.joined job height hj hlow (by omega) hlen
  · intro job height hj hlow hle hlen
    obtain ⟨old, ho, heq⟩ := htip job hj
    rw [joined_run_worker]
    exact h.joined old height ho hlow (by omega) hlen

theorem Filed.above (h : Filed s) {under : List PendingScripts} (ha : (s.connection_at fork_height under).Above) :
    s.undo_base ≤ fork_height ∧
      ∀ height, fork_height < height → s.undo_base < height ∧
        ∀ job, s.utxo.flush_join = some job → job.tip < height := by
  obtain ⟨hbase, hflight⟩ := ha
  change s.undo_base ≤ fork_height at hbase
  refine ⟨hbase, fun height hlt => ⟨by omega, fun job hj => ?_⟩⟩
  have hmem : job.tip ∈ (s.connection_at fork_height under).flush_target := by
    change s.inflight_flush.map Prod.fst = some job.tip
    rw [h.flight, hj, Option.map_some]
  have : job.tip ≤ fork_height := hflight job.tip hmem
  omega

theorem Filed.push (h : Filed s) (hk : CoinsKept s.utxo utxo) (ha : (s.connection_at s.tip_height []).Above)
    {record : BlockRecord} (hmade : record.Made) :
    Filed (s.push_tip record utxo) := by
  obtain ⟨hbase, habove⟩ := h.above ha
  rw [h.tip_height] at hbase habove
  have r : Reshaped s (s.push_tip record utxo) s.records.length := by
    refine ⟨hk, rfl, rfl, rfl, rfl, le_rfl, ?_, ?_, ?_, ?_, ?_, ?_⟩
    · change (s.records ++ [record]).take s.records.length = s.records.take s.records.length
      simp
    · intro height hlt _
      exact habove height hlt
    · obtain ⟨genesis, hchain⟩ := h.recorded
      refine ⟨genesis, ?_⟩
      change s.chain ++ [record.hash] = genesis :: (s.records ++ [record]).map BlockRecord.hash
      simp [hchain]
    · intro r hr
      rcases List.mem_append.mp hr with hr | hr
      · exact h.made r hr
      · rw [List.mem_singleton.mp hr]
        exact hmade
    · change s.undos ++ [record.undo] = ((s.records ++ [record]).drop s.undo_base).map BlockRecord.undo
      rw [h.tail, List.drop_append_of_le_length hbase, List.map_append]
      rfl
    · intro f hf
      have := h.floor_le f hf
      change f.1 ≤ (s.records ++ [record]).length
      simp only [List.length_append]
      omega
  exact h.reshaped r

theorem Filed.switch (h : Filed s) (hk : CoinsKept s.utxo utxo)
    (ha : (s.connection_at fork_height (s.pending_under fork_height)).Above) (hfork : fork_height < s.chain.length)
    (hfloor : ∀ f, s.undo_floor = some f → f.1 ≤ fork_height) (branch_hashes : List BlockHash)
    (hhash : parts.map (fun p => p.1.hash) = branch_hashes) (hmade : ∀ p ∈ parts, p.1.Made) (tree : HeaderTree) :
    Filed { s.switch_branch fork_height branch_hashes parts utxo tree with
      undos := (s.switch_branch fork_height branch_hashes parts utxo tree).undos ++ parts.map fun p =>
        p.1.undo } := by
  obtain ⟨hbase, habove⟩ := h.above ha
  have hrec := h.length
  have htake : (s.records.take fork_height).length = fork_height := by
    rw [List.length_take]
    omega
  suffices r : Reshaped s _ fork_height from h.reshaped r
  refine ⟨hk, rfl, rfl, rfl, rfl, by omega, ?_, ?_, ?_, ?_, ?_, ?_⟩
  · change (s.records.take fork_height ++ parts.map Prod.fst).take fork_height = _
    rw [List.take_append_of_le_length htake.ge, List.take_take, min_self]
  · intro height hlt _
    exact habove height hlt
  · obtain ⟨genesis, hchain⟩ := h.recorded
    refine ⟨genesis, ?_⟩
    change s.chain.take (fork_height + 1) ++ branch_hashes =
      genesis :: (s.records.take fork_height ++ parts.map Prod.fst).map BlockRecord.hash
    rw [hchain, List.take_succ_cons, ← hhash]
    simp [List.map_take]
  · intro r hr
    rcases List.mem_append.mp hr with hr | hr
    · exact h.made r (List.mem_of_mem_take hr)
    · obtain ⟨p, hp, rfl⟩ := List.mem_map.mp hr
      exact hmade p hp
  · change (if s.undo_base ≤ fork_height then s.undos.take (fork_height - s.undo_base) else []) ++
      (parts.map fun p => p.1.undo) =
        ((s.records.take fork_height ++ parts.map Prod.fst).drop s.undo_base).map BlockRecord.undo
    rw [if_pos hbase, h.tail, List.drop_append_of_le_length (by omega), List.map_append, ← List.map_take,
      List.drop_take, List.map_map]
    rfl
  · intro f hf
    have := hfloor f hf
    change f.1 ≤ (s.records.take fork_height ++ parts.map Prod.fst).length
    rw [List.length_append, htake]
    omega

theorem Filed.adopt (h : Filed s) (hk : CoinsKept s.utxo utxo)
    (ha : (s.connection_at fork_height (s.pending_under fork_height)).Above) (hfork : fork_height < s.chain.length)
    (hfloor : ∀ f, s.undo_floor = some f → f.1 ≤ fork_height) (hash : BlockHash) (branch_hashes : List BlockHash)
    (hhash : parts.map (fun p => p.1.hash) = branch_hashes) (hmade : ∀ p ∈ parts, p.1.Made) (tree : HeaderTree) :
    Filed (s.adopt_branch hash fork_height branch_hashes parts utxo tree).2 := by
  have hf := h.switch hk ha hfork hfloor branch_hashes hhash hmade tree
  obtain ⟨receipts, hr⟩ := note_receipts_eq (s.switch_branch fork_height branch_hashes parts utxo tree)
    (parts.map Prod.snd)
  obtain ⟨checked_feed, hfeed, -⟩ := push_all_checked_eq
    { s.switch_branch fork_height branch_hashes parts utxo tree with receipts } (fork_height + 1) branch_hashes
  have hbase : undo_base { s.switch_branch fork_height branch_hashes parts utxo tree with receipts, checked_feed } =
      s.undo_base := undo_base_congr (by rw [← hk.same.same.backend]; rfl) rfl
  have hsplit : s.undo_base - fork_height = 0 := by
    have := (h.above ha).1
    omega
  unfold adopt_branch
  dsimp only
  rw [hr, hfeed, hbase, hsplit]
  simp only [Nat.zero_min, lt_irrefl, if_false, List.drop_zero]
  exact hf.quiet ⟨.refl hk.ok, rfl, rfl, rfl, rfl, rfl, rfl, rfl⟩

theorem Filed.rewound {s u t : Chainstate} (h : Filed s) {target : ℕ}
    (floor : ¬ s.undo_floor.any fun f => target < f.1)
    (popped : Chainstate.rewind_loop (s.tip_height - target) u = (r, t)) (q : Quiet s u) : Filed t := by
  have hf : Filed (Chainstate.rewind_loop (s.tip_height - target) u).2 := (h.quiet q).rewind_loop (fun f hf => by
    rw [q.undo_floor] at hf
    rw [q.records, h.tip_height]
    have := h.floor_le f hf
    have : ¬ target < f.1 := by simpa [hf] using floor
    omega)
  rw [popped] at hf
  exact hf

theorem Filed.reconnected (h : Filed s) : Filed { s with connected := s.chain.getLast?.getD s.connected } :=
  h.quiet ⟨.refl h.coins, rfl, rfl, rfl, rfl, rfl, rfl, rfl⟩

theorem Filed.stuck (h : Filed s) : Filed { s with stuck := true } :=
  h.quiet ⟨.refl h.coins, rfl, rfl, rfl, rfl, rfl, rfl, rfl⟩

theorem Move.filed (h : Move s t) (hs : Filed s) (ha : ∀ c ∈ t.connections, c.Above) : Filed t := by
  have hrefl : CoinsKept s.utxo s.utxo := .refl hs.coins
  cases h with
  | insert header now => exact hs.quiet ⟨hrefl, rfl, rfl, rfl, rfl, rfl, rfl, rfl⟩
  | mark hash => exact hs.quiet ⟨hrefl, rfl, rfl, rfl, rfl, rfl, rfl, rfl⟩
  | mark_subtree hash => exact hs.quiet ⟨hrefl, rfl, rfl, rfl, rfl, rfl, rfl, rfl⟩
  | clear_subtree hash => exact hs.quiet ⟨hrefl, rfl, rfl, rfl, rfl, rfl, rfl, rfl⟩
  | precious hash => exact hs.quiet ⟨hrefl, rfl, rfl, rfl, rfl, rfl, rfl, rfl⟩
  | take_checked => exact hs.quiet ⟨hrefl, rfl, rfl, rfl, rfl, rfl, rfl, rfl⟩
  | verify scripts_verified => exact hs.quiet ⟨hrefl, rfl, rfl, rfl, rfl, rfl, rfl, rfl⟩
  | speculate => exact hs.quiet ⟨hrefl, rfl, rfl, rfl, rfl, rfl, rfl, rfl⟩
  | retain_new added => exact hs.quiet ⟨hrefl, rfl, rfl, rfl, rfl, rfl, rfl, rfl⟩
  | retain_known fresh => exact hs.quiet ⟨hrefl, rfl, rfl, rfl, rfl, rfl, rfl, rfl⟩
  | settle front passed => exact hs.quiet ⟨hrefl, rfl, rfl, rfl, rfl, rfl, rfl, rfl⟩
  | @connect_failed block ctx e utxo failed hash =>
    have hk := connect_full_kept block ctx hs.coins
    rw [failed] at hk
    exact hs.quiet ⟨hk, rfl, rfl, rfl, rfl, rfl, rfl, rfl⟩
  | @connect block undo check receipt utxo node stored known extends_tip connects =>
    have hk := connect_full_kept block (s.context block.block_hash s.script_pool) hs.coins
    rw [connects] at hk
    have habove : (s.connection_at s.tip_height []).Above := by
      apply ha
      cases check <;> exact List.mem_append_right _ List.mem_cons_self
    have hmade : BlockRecord.Made
        ⟨block.block_hash, undo, block_checks block s.utxo (s.context block.block_hash s.script_pool)⟩ :=
      ⟨block, s.utxo, s.context block.block_hash s.script_pool, check, receipt, rfl, by rw [connects], rfl⟩
    have hp := hs.push hk habove hmade
    cases check <;> exact hp.quiet ⟨.refl hk.ok, rfl, rfl, rfl, rfl, rfl, rfl, rfl⟩
  | rewound floor popped => exact (hs.rewound floor popped ⟨hrefl, rfl, rfl, rfl, rfl, rfl, rfl, rfl⟩).reconnected
  | rewind_stuck floor popped => exact (hs.rewound floor popped ⟨hrefl, rfl, rfl, rfl, rfl, rfl, rfl, rfl⟩).stuck
  | condemned front preflight popped =>
    exact (hs.rewound (preflight_floor preflight) popped ⟨hrefl, rfl, rfl, rfl, rfl, rfl, rfl, rfl⟩).reconnected
  | condemned_stuck front preflight popped =>
    exact (hs.rewound (preflight_floor preflight) popped ⟨hrefl, rfl, rfl, rfl, rfl, rfl, rfl, rfl⟩).stuck
  | join =>
    obtain ⟨t, hj, hr, -⟩ := hs.join
    rw [hj]
    exact hr.filed
  | flush => exact hs.flush
  | land => exact hs.land
  | @simulate_failed hash fork_height branch_hashes e sim tree elected simulated =>
    exact hs.quiet ⟨simulated_kept hs.coins simulated false, rfl, rfl, rfl, rfl, rfl, rfl, rfl⟩
  | @adopt hash fork_height branch_hashes parts sim tree elected simulated =>
    obtain ⟨new_node, conn_node, whole, he⟩ := elected_of elected
    have habove : (s.connection_at fork_height (s.pending_under fork_height)).Above := by
      apply ha
      obtain ⟨_, _, _, _, _, _, _, he, -⟩ := adopt_eq s hash fork_height branch_hashes parts
        (s.utxo.overlay.2.unoverlay sim true) tree
      rw [he]
      exact List.mem_append_right _ List.mem_cons_self
    exact hs.adopt (simulated_kept hs.coins simulated true) habove (branch_walk_active he.walk) he.above_floor hash
      branch_hashes (simulate_branch_hashes simulated) (simulate_branch_made simulated) tree

end Chainstate

end

end AvilaNode
