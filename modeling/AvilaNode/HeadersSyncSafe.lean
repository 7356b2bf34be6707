import AvilaNode.HeadersSync

/-! What a low-work header sync releases, over every run of batches. -/

namespace AvilaNode

open GuardedLoop

variable {received : List BlockHeader}

section

variable [Platform]

def ChainFrom (hash : BlockHash) : List BlockHeader → Prop
  | [] => True
  | header :: headers => header.prev_block_hash = hash ∧ ChainFrom header.hash headers

def last_hash (hash : BlockHash) (headers : List BlockHeader) : BlockHash :=
  (headers.getLast?.map BlockHeader.hash).getD hash

def batch_work (headers : List BlockHeader) : ℕ := (headers.map fun header => Work.from_compact header.bits).sum

def Continuous (headers : List BlockHeader) : Prop := headers.IsChain fun a b => b.prev_block_hash = a.hash

variable {hash : BlockHash} {headers : List BlockHeader}

variable {more : List BlockHeader}

theorem chainFrom_append :
    ChainFrom hash (headers ++ more) ↔ ChainFrom hash headers ∧ ChainFrom (last_hash hash headers) more := by
  induction headers generalizing hash with
  | nil => simp [ChainFrom, last_hash]
  | cons header headers ih =>
    have hl : last_hash hash (header :: headers) = last_hash header.hash headers := by
      cases headers <;> simp [last_hash, List.getLast?_cons]
    rw [List.cons_append, ChainFrom, ih, ChainFrom, hl, and_assoc]

@[simp] theorem last_hash_concat (hash : BlockHash) (headers : List BlockHeader) (header : BlockHeader) :
    last_hash hash (headers ++ [header]) = header.hash := by
  simp [last_hash]

theorem chainFrom_concat {header : BlockHeader} : ChainFrom hash (headers ++ [header]) ↔
      ChainFrom hash headers ∧ header.prev_block_hash = last_hash hash headers := by
  rw [chainFrom_append]
  simp [ChainFrom]

omit [Platform] in
@[simp] theorem batch_work_concat (headers : List BlockHeader) (header : BlockHeader) :
    batch_work (headers ++ [header]) = batch_work headers + Work.from_compact header.bits := by
  simp [batch_work]

theorem ChainFrom.of_continuous (h : Continuous headers)
    (hhead : ∀ header, headers.head? = some header → header.prev_block_hash = hash) : ChainFrom hash headers := by
  induction headers generalizing hash with
  | nil => trivial
  | cons header headers ih =>
    refine ⟨hhead header rfl, ih (List.IsChain.of_cons h) fun next hnext => ?_⟩
    cases headers with
    | nil => cases hnext
    | cons second rest =>
      cases hnext
      exact (List.isChain_cons_cons.mp h).1

namespace HeadersSyncState

def commitments (s : HeadersSyncState) (height : ℕ) : List BlockHeader → List Bool
  | [] => []
  | header :: headers =>
    (if s.commits (height + 1) then [commitment_bit s.salt header.hash] else []) ++ s.commitments (height + 1) headers

theorem commitments_append (s : HeadersSyncState) (height : ℕ) (headers more : List BlockHeader) :
    s.commitments height (headers ++ more) =
      s.commitments height headers ++ s.commitments (height + headers.length) more := by
  induction headers generalizing height with
  | nil => simp [commitments]
  | cons header headers ih =>
    rw [List.cons_append, commitments, ih, commitments, List.append_assoc, List.length_cons]
    congr 3
    omega

def presynced (start : HeadersSyncState) (headers : List BlockHeader) : HeadersSyncState :=
  { start with
    header_commitments := start.commitments start.chain_start_height headers
    current_chain_work := start.chain_start_work + batch_work headers
    last_header_received := headers.getLastD start.last_header_received
    current_height := start.chain_start_height + headers.length }

def work_with (start : HeadersSyncState) (headers : List BlockHeader) : ℕ :=
  start.chain_start_work + batch_work headers

def redownloading (start : HeadersSyncState) (first headers waiting : List BlockHeader) (rest : List Bool) :
    HeadersSyncState :=
  { start.presynced first with
    header_commitments := rest
    redownloaded_headers := waiting
    redownload_last_height := start.chain_start_height + headers.length
    redownload_last_hash := last_hash start.chain_start_hash headers
    redownload_chain_work := start.work_with headers
    process_all_remaining := !headers.isEmpty && decide (start.minimum_required_work ≤ start.work_with headers)
    phase := .Redownload }

variable {s start : HeadersSyncState} {header : BlockHeader} {first headers waiting released : List BlockHeader}
  {rest : List Bool} {h : History}

variable {t : HeadersSyncState}

theorem validate_single_eq_true (h : s.validate_and_process_single_header header = (true, t)) :
    (s.header_commitments.length ≤ s.max_commitments → t.header_commitments.length ≤ s.max_commitments) ∧
    t = { s with
      header_commitments := s.header_commitments ++ s.commitments s.current_height [header]
      current_chain_work := s.current_chain_work + Work.from_compact header.bits
      last_header_received := header
      current_height := s.current_height + 1 } := by
  unfold validate_and_process_single_header Work.checked_add at h
  dsimp only at h
  split at h
  · cases h
  · cases hc : s.commits (s.current_height + 1) with
    | true =>
      simp only [hc, if_true, true_and] at h
      split at h
      · cases h
      · next hlen =>
        split at h
        · cases h
        · next hw =>
          split at hw
          · cases hw
            cases h
            exact ⟨fun _ => Nat.le_of_not_lt hlen, by simp [commitments, hc]⟩
          · cases hw
    | false =>
      simp only [hc, Bool.false_eq_true, if_false, false_and] at h
      split at h
      · cases h
      · next hw =>
        split at hw
        · cases hw
          cases h
          exact ⟨id, by simp [commitments, hc]⟩
        · cases hw

theorem validate_single_length (s : HeadersSyncState) (header : BlockHeader) :
    (s.validate_and_process_single_header header).2.header_commitments.length ≤ s.header_commitments.length + 1 ∧
      (s.validate_and_process_single_header header).2.redownloaded_headers = s.redownloaded_headers := by
  unfold validate_and_process_single_header
  dsimp only
  split
  · exact ⟨Nat.le_succ _, rfl⟩
  · cases hc : s.commits (s.current_height + 1) with
    | true =>
      simp only [if_true, true_and]
      split
      · simp
      · split <;> simp
    | false =>
      simp only [Bool.false_eq_true, if_false, false_and]
      split <;> simp

theorem check_commitment_eq_true {height : ℕ} (h : s.check_commitment height hash = (true, t)) :
    (s.process_all_remaining = true ∧ t = s) ∨ (s.process_all_remaining = false ∧ s.commits height = false ∧ t = s) ∨
      (s.process_all_remaining = false ∧ s.commits height = true ∧
        s.header_commitments = commitment_bit s.salt hash :: t.header_commitments ∧
        t = { s with header_commitments := t.header_commitments }) := by
  unfold check_commitment at h
  cases hp : s.process_all_remaining with
  | true =>
    simp only [hp, Bool.not_true, Bool.false_and, Bool.false_eq_true, if_false] at h
    cases h
    exact Or.inl ⟨rfl, rfl⟩
  | false =>
    cases hc : s.commits height with
    | false =>
      simp only [hp, hc, Bool.and_false, Bool.false_eq_true, if_false] at h
      cases h
      exact Or.inr (Or.inl ⟨rfl, rfl, rfl⟩)
    | true =>
      simp only [hp, hc, Bool.not_false, Bool.and_true, if_true] at h
      split at h
      · cases h
      · next expected rest hrest =>
        obtain ⟨hbit, rfl⟩ := Prod.mk.inj h
        rw [hrest, beq_iff_eq.mp hbit]
        exact Or.inr (Or.inr ⟨rfl, rfl, rfl, rfl⟩)

theorem check_commitment_length (s : HeadersSyncState) (height : ℕ) (hash : BlockHash) :
    (s.check_commitment height hash).2.header_commitments.length ≤ s.header_commitments.length ∧
      (s.check_commitment height hash).2.redownloaded_headers = s.redownloaded_headers := by
  unfold check_commitment
  split
  · split
    · next h => simp
    · next h => simp [h]
  · simp

def Matched (start : HeadersSyncState) (first headers : List BlockHeader) (rest : List Bool) : Prop :=
  start.work_with headers < start.minimum_required_work →
    start.commitments start.chain_start_height headers ++ rest = start.commitments start.chain_start_height first

omit [Platform] in
theorem work_with_concat (start : HeadersSyncState) (headers : List BlockHeader) (header : BlockHeader) :
    start.work_with (headers ++ [header]) = start.work_with headers + Work.from_compact header.bits := by
  rw [work_with, batch_work_concat, ← Nat.add_assoc, work_with]

theorem validate_redownloaded_eq_true (hm : start.Matched first headers rest)
    (h : (start.redownloading first headers waiting rest).validate_and_store_redownloaded_header header = (true, t)) :
    header.prev_block_hash = last_hash start.chain_start_hash headers ∧
      ∃ rest', rest'.length ≤ rest.length ∧ start.Matched first (headers ++ [header]) rest' ∧
        t = start.redownloading first (headers ++ [header]) (waiting ++ [header]) rest' := by
  unfold validate_and_store_redownloaded_header Work.checked_add at h
  dsimp only at h
  split at h
  · cases h
  · next hprev =>
    refine ⟨not_not.mp hprev, ?_⟩
    split at h
    · cases h
    split at h
    · cases h
    · next work hw =>
      split at hw
      · obtain rfl := Option.some.inj hw
        have hwork : (start.redownloading first headers waiting rest).redownload_chain_work
            + Work.from_compact header.bits = start.work_with (headers ++ [header]) :=
          (work_with_concat start headers header).symm
        rw [hwork] at h
        have hproved : ((start.redownloading first headers waiting rest).process_all_remaining
            || decide ((start.redownloading first headers waiting rest).minimum_required_work
              ≤ start.work_with (headers ++ [header])))
            = (!(headers ++ [header]).isEmpty
              && decide (start.minimum_required_work ≤ start.work_with (headers ++ [header]))) := by
          have hadd := work_with_concat start headers header
          change ((!headers.isEmpty && decide (start.minimum_required_work ≤ start.work_with headers))
            || decide (start.minimum_required_work ≤ start.work_with (headers ++ [header]))) = _
          have hne : (headers ++ [header]).isEmpty = false := by simp
          rw [hne, Bool.not_false, Bool.true_and, Bool.eq_iff_iff, Bool.or_eq_true, Bool.and_eq_true,
            decide_eq_true_eq, decide_eq_true_eq]
          omega
        rw [hproved] at h
        split at h
        · cases h
        · next u hc =>
          obtain rfl := (Prod.mk.inj h).2
          have hcommits : start.commitments (start.chain_start_height + headers.length) [header] =
              if start.commits (start.chain_start_height + headers.length + 1) then
                [commitment_bit start.salt header.hash] else [] := by
            simp [commitments]
          rcases check_commitment_eq_true hc with ⟨hall, rfl⟩ | ⟨hall, hno, rfl⟩ | ⟨hall, hyes, hrest, hu⟩
          · refine ⟨rest, le_refl _, fun hlt => ?_, ?_⟩
            · simp only [Bool.and_eq_true, decide_eq_true_eq] at hall
              omega
            · simp [redownloading, presynced, Nat.add_assoc]
          · refine ⟨rest, le_refl _, fun hlt => ?_, ?_⟩
            · rw [commitments_append, hcommits, if_neg, List.append_nil]
              · exact hm (by have := work_with_concat start headers header; omega)
              · rw [Bool.not_eq_true]
                exact hno
            · simp [redownloading, presynced, Nat.add_assoc]
          · refine ⟨u.header_commitments, ?_, fun hlt => ?_, ?_⟩
            · have hlen := congrArg List.length hrest
              simp only [redownloading, List.length_cons] at hlen
              omega
            · rw [commitments_append, hcommits, if_pos, List.append_assoc, List.singleton_append]
              · refine Eq.trans ?_ (hm (by have := work_with_concat start headers header; omega))
                exact congrArg _ hrest.symm
              · exact hyes
            · rw [hu]
              simp [redownloading, presynced, Nat.add_assoc]
      · cases hw

theorem validate_redownloaded_length (s : HeadersSyncState) (header : BlockHeader) :
    (s.validate_and_store_redownloaded_header header).2.header_commitments.length ≤ s.header_commitments.length ∧
      (s.validate_and_store_redownloaded_header header).2.redownloaded_headers.length
        ≤ s.redownloaded_headers.length + 1 := by
  unfold validate_and_store_redownloaded_header
  dsimp only
  split
  · simp
  split
  · simp
  split
  · simp
  · next work hw =>
    have hlen := check_commitment_length { s with
      redownload_chain_work := work
      process_all_remaining := s.process_all_remaining || decide (s.minimum_required_work ≤ work) }
      (s.redownload_last_height + 1) header.hash
    split
    all_goals
      next hc =>
        rw [hc] at hlen
        have heq := congrArg List.length hlen.2
        refine ⟨hlen.1, ?_⟩
        simp only [List.length_append, List.length_singleton]
        dsimp only at heq
        omega

structure History where
  presynced : List BlockHeader
  redownloaded : List BlockHeader
  released : List BlockHeader

def presync_taken (s : HeadersSyncState) (received : List BlockHeader) : List BlockHeader :=
  if (received.head?.map BlockHeader.prev_block_hash) ≠ some s.last_header_received.hash then []
  else taken validate_and_process_single_header s received

def History.next (h : History) (s : HeadersSyncState) (received : List BlockHeader) (full : Bool) : History where
  presynced := h.presynced ++ if s.phase = .Presync then s.presync_taken received else []
  redownloaded := h.redownloaded ++
    if s.phase = .Redownload then taken validate_and_store_redownloaded_header s received else []
  released := h.released ++ (s.process_next_headers received full).1.pow_validated_headers

inductive Fed (start : HeadersSyncState) : HeadersSyncState → History → Prop
  | new : Fed start start ⟨[], [], []⟩
  | next {s : HeadersSyncState} {h : History} (fed : Fed start s h) (received : List BlockHeader) (full : Bool)
      (continuous : Continuous received) :
      Fed start (s.process_next_headers received full).2 (h.next s received full)

structure Fresh (start : HeadersSyncState) : Prop where
  presynced : start.presynced [] = start
  last : start.last_header_received.hash = start.chain_start_hash
  waiting : start.redownloaded_headers = []
  remaining : start.process_all_remaining = false
  phase : start.phase = .Presync

theorem fresh_new (tree : HeaderTree) (chain_start : HeaderNode) (params : Params) (sync_params : HeadersSyncParams)
    (minimum_required_work now : ℕ) (salt : List UInt8) :
    Fresh (new tree chain_start params sync_params minimum_required_work now salt) :=
  ⟨rfl, rfl, rfl, rfl, rfl⟩

structure Safe (start : HeadersSyncState) (h : History) : Prop where
  presynced : ChainFrom start.chain_start_hash h.presynced
  redownloaded : ChainFrom start.chain_start_hash h.redownloaded
  order : h.released <+: h.redownloaded
  proved : h.redownloaded ≠ [] → start.minimum_required_work ≤ start.work_with h.presynced
  buffered : start.work_with h.redownloaded < start.minimum_required_work →
    h.released = [] ∨ h.released.length + start.sync_params.redownload_buffer_size ≤ h.redownloaded.length
  matched : start.work_with h.redownloaded < start.minimum_required_work →
    start.commitments start.chain_start_height h.redownloaded <+:
      start.commitments start.chain_start_height h.presynced

inductive Live (start : HeadersSyncState) : HeadersSyncState → History → Prop
  | presync {first : List BlockHeader}
    (bounded : (start.presynced first).header_commitments.length ≤ start.max_commitments) :
      Live start (start.presynced first) ⟨first, [], []⟩
  | redownload {first released waiting : List BlockHeader} {rest : List Bool}
      (bounded : rest.length ≤ start.max_commitments)
      (buffer : waiting.length ≤ start.sync_params.redownload_buffer_size)
      (matched : start.Matched first (released ++ waiting) rest)
      (proved : start.minimum_required_work ≤ start.work_with first) :
      Live start (start.redownloading first (released ++ waiting) waiting rest) ⟨first, released ++ waiting, released⟩
  | final {s : HeadersSyncState} {h : History} (phase : s.phase = .Final) (bits : s.header_commitments = [])
      (waiting : s.redownloaded_headers = []) : Live start s h

theorem Live.finalize (start s : HeadersSyncState) (h : History) : Live start s.finalize h := .final rfl rfl rfl

theorem presynced_commitments (start : HeadersSyncState) (first : List BlockHeader) (height : ℕ)
    (headers : List BlockHeader) :
    (start.presynced first).commitments height headers = start.commitments height headers := by
  induction headers generalizing height with
  | nil => rfl
  | cons header headers ih =>
    rw [commitments, ih]
    rfl

theorem presynced_step
    (hb : (start.presynced first).header_commitments.length ≤
    start.max_commitments) (h : (start.presynced first).validate_and_process_single_header header = (true, t)) :
    t = start.presynced (first ++ [header]) ∧ t.header_commitments.length ≤ start.max_commitments := by
  obtain ⟨hlen, rfl⟩ := validate_single_eq_true h
  refine ⟨?_, hlen hb⟩
  rw [presynced_commitments]
  simp [presynced, commitments_append, Nat.add_assoc]

theorem last_received (hf : Fresh start) (first : List BlockHeader) :
    (start.presynced first).last_header_received.hash = last_hash start.chain_start_hash first := by
  change (first.getLastD start.last_header_received).hash = _
  cases first using List.reverseRecOn with
  | nil => exact hf.last
  | append_singleton first header => simp

theorem Live.next_presync (hf : Fresh start)
    (hb : (start.presynced first).header_commitments.length ≤ start.max_commitments)
    (hchain : ChainFrom start.chain_start_hash first) (hne : received ≠ []) (hc : Continuous received) (full : Bool) :
    let h' := History.next ⟨first, [], []⟩ (start.presynced first) received full
    Live start ((start.presynced first).process_next_headers received full).2 h' ∧
      h'.redownloaded = [] ∧ h'.released = [] ∧ ChainFrom start.chain_start_hash h'.presynced := by
  have hphase : (start.presynced first).phase = .Presync := hf.phase
  have hstep : (start.presynced first).process_next_headers received full
      = finish ((start.presynced first).process_presync received full) := by
    rw [process_next_headers, List.isEmpty_eq_false_iff.mpr hne, hphase]
    rfl
  have hnext : History.next ⟨first, [], []⟩ (start.presynced first) received full
      = ⟨first ++ (start.presynced first).presync_taken received, [], []⟩ := by
    simp [History.next, hphase, hstep, finish, process_presync]
  rw [hstep]
  rw [hnext]
  unfold finish process_presync validate_and_store_headers_commitments presync_taken
  split
  · exact ⟨.finalize start _ _, rfl, rfl, by simpa using hchain⟩
  · next hhead =>
    have hhead' : ∀ header, received.head? = some header →
        header.prev_block_hash = last_hash start.chain_start_hash first := by
      intro header hh
      rw [not_not, hh, last_received hf] at hhead
      exact Option.some.inj hhead
    have htaken : ChainFrom start.chain_start_hash
        (first ++ taken validate_and_process_single_header (start.presynced first) received) := by
      obtain ⟨rest, hrest⟩ := taken_isPrefix validate_and_process_single_header (start.presynced first) received
      have hall := chainFrom_append.mpr ⟨hchain, ChainFrom.of_continuous hc hhead'⟩
      rw [← hrest, ← List.append_assoc] at hall
      exact (chainFrom_append.mp hall).1
    have hloop := loop_keeps (P := fun hs s => s = start.presynced hs
        ∧ s.header_commitments.length ≤ start.max_commitments)
      (fun hs s a t hs' ht => by
        obtain ⟨rfl, hlen⟩ := hs'
        exact presynced_step hlen ht) ⟨rfl, hb⟩ received
    refine ⟨?_, rfl, rfl, htaken⟩
    cases hrun : loop validate_and_process_single_header (start.presynced first) received with
    | mk success t =>
      rw [hrun] at hloop
      cases success with
      | false => exact .finalize start _ _
      | true =>
        rcases hloop with ⟨-, rfl, hlen⟩ | ⟨u, a, -, -, -, hfalse⟩
        · dsimp only
          split
          · next hwork =>
            have hstart : (start.presynced (first ++ taken validate_and_process_single_header
                (start.presynced first) received)).start_redownload
                = start.redownloading (first ++ taken validate_and_process_single_header
                  (start.presynced first) received) ([] ++ []) [] (start.commitments start.chain_start_height
                    (first ++ taken validate_and_process_single_header (start.presynced first) received)) := by
              have hremaining := hf.remaining
              simp [start_redownload, redownloading, presynced, last_hash, work_with, batch_work, hremaining]
            split
            · rw [hstart]
              exact .redownload hlen (Nat.zero_le _) (fun _ => by simp [commitments]) hwork
            · exact .finalize start _ _
          · split
            · exact .presync hlen
            · exact .finalize start _ _
        · cases hfalse

def Redownloaded (start : HeadersSyncState) (first released waiting more : List BlockHeader) (t : HeadersSyncState) :
    Prop :=
  ChainFrom start.chain_start_hash (released ++ (waiting ++ more)) ∧ ∃ rest, rest.length ≤ start.max_commitments ∧
    start.Matched first (released ++ (waiting ++ more)) rest ∧
    t = start.redownloading first (released ++ (waiting ++ more)) (waiting ++ more) rest

theorem redownloaded_step (hs : start.Redownloaded first released waiting more s)
    (ht : s.validate_and_store_redownloaded_header header = (true, t)) :
    start.Redownloaded first released waiting (more ++ [header]) t := by
  obtain ⟨hchain, rest, hlen, hm, rfl⟩ := hs
  obtain ⟨hprev, rest', hrest, hm', rfl⟩ := validate_redownloaded_eq_true hm ht
  have happ : released ++ (waiting ++ (more ++ [header])) = released ++ (waiting ++ more) ++ [header] := by simp
  refine ⟨?_, rest', le_trans hrest hlen, ?_, ?_⟩
  · rw [happ]
    exact chainFrom_concat.mpr ⟨hchain, hprev⟩
  · rw [happ]
    exact hm'
  · rw [happ, List.append_assoc waiting]

omit [Platform] in
theorem work_with_append_le (start : HeadersSyncState) (headers more : List BlockHeader) :
    start.work_with headers ≤ start.work_with (headers ++ more) := by
  simp only [work_with, batch_work, List.map_append, List.sum_append]
  omega

theorem Matched.isPrefix (h : start.Matched first headers rest)
    (hlt : start.work_with headers < start.minimum_required_work) :
    start.commitments start.chain_start_height headers <+: start.commitments start.chain_start_height first :=
  ⟨rest, h hlt⟩

theorem Safe.redownload (out : List BlockHeader) (h : Safe start ⟨first, released ++ waiting, released⟩)
    (hproved : start.minimum_required_work ≤ start.work_with first)
    (hchain : ChainFrom start.chain_start_hash (released ++ (waiting ++ more)))
    (hm : start.Matched first (released ++ (waiting ++ more)) rest) (hout : out <+: waiting ++ more)
    (hlen : start.work_with (released ++ (waiting ++ more)) < start.minimum_required_work → out = [] ∨
      out.length + start.sync_params.redownload_buffer_size ≤ (waiting ++ more).length) :
    Safe start ⟨first, released ++ (waiting ++ more), released ++ out⟩ := by
  refine ⟨h.presynced, hchain, List.prefix_append_right_inj released |>.mpr hout, fun _ => hproved, fun hlt => ?_,
    fun hlt => hm.isPrefix hlt⟩
  have hle := work_with_append_le start (released ++ waiting) more
  rw [List.append_assoc] at hle
  rcases hlen hlt with rfl | hout'
  · rcases h.buffered (lt_of_le_of_lt hle hlt) with hnil | hold
    · exact Or.inl (by simpa using hnil)
    · right
      simp only [List.append_nil, List.length_append] at hold ⊢
      omega
  · right
    simp only [List.length_append] at hout' ⊢
    omega

theorem ready_drop (start : HeadersSyncState) (first headers waiting : List BlockHeader) (rest : List Bool) :
    (waiting.drop (start.redownloading first headers waiting rest).ready).length
      ≤ start.sync_params.redownload_buffer_size := by
  rw [List.length_drop, ready]
  split
  · exact le_trans (Nat.sub_self _).le (Nat.zero_le _)
  · exact tsub_tsub_le

theorem ready_take (hlt : start.work_with headers < start.minimum_required_work) (first waiting : List BlockHeader)
    (rest : List Bool) :
    waiting.take (start.redownloading first headers waiting rest).ready = [] ∨
      (waiting.take (start.redownloading first headers waiting rest).ready).length
        + start.sync_params.redownload_buffer_size ≤ waiting.length := by
  have hready : (start.redownloading first headers waiting rest).ready
      = waiting.length - start.sync_params.redownload_buffer_size := by
    refine if_neg ?_
    change ¬(!headers.isEmpty && decide _) = true
    rw [decide_eq_false (Nat.not_le_of_lt hlt), Bool.and_false]
    exact Bool.false_ne_true
  rw [hready]
  by_cases hfull : waiting.length ≤ start.sync_params.redownload_buffer_size
  · left
    rw [Nat.sub_eq_zero_of_le hfull, List.take_zero]
  · right
    rw [List.length_take]
    omega

theorem Live.next_redownload (bounded : rest.length ≤ start.max_commitments)
    (matched : start.Matched first (released ++ waiting) rest)
    (proved : start.minimum_required_work ≤ start.work_with first)
    (hsafe : Safe start ⟨first, released ++ waiting, released⟩) (hne : received ≠ []) (full : Bool) :
    let s := start.redownloading first (released ++ waiting) waiting rest
    let h' := History.next ⟨first, released ++ waiting, released⟩ s received full
    Live start (s.process_next_headers received full).2 h' ∧ Safe start h' := by
  dsimp only
  set s := start.redownloading first (released ++ waiting) waiting rest with hs
  have hstep : s.process_next_headers received full = finish (s.process_redownload received full) := by
    rw [process_next_headers, List.isEmpty_eq_false_iff.mpr hne]
    rfl
  have hstart : start.Redownloaded first released waiting [] s := by
    refine ⟨?_, rest, bounded, ?_, ?_⟩
    · simpa using hsafe.redownloaded
    · simpa using matched
    · simp [hs]
  have hloop := loop_keeps (P := start.Redownloaded first released waiting)
    (fun _ _ _ _ hs ht => redownloaded_step hs ht) hstart received
  rw [List.nil_append] at hloop
  unfold History.next
  rw [hstep]
  rw [if_neg (by simp [hs, redownloading]), if_pos (by rfl)]
  generalize taken validate_and_store_redownloaded_header s received = more at hloop ⊢
  rw [List.append_nil, List.append_assoc released]
  rcases hloop with ⟨hrun, hchain, rest', hlen, hm, ht⟩ | ⟨u, a, ⟨hchain, rest', hlen, hm, -⟩, -, -, hrun⟩
  · generalize hk : (start.redownloading first (released ++ (waiting ++ more)) (waiting ++ more) rest').ready = k at *
    have hproc : s.process_redownload received full
        = (⟨(waiting ++ more).take k, true, !(((waiting ++ more).drop k).isEmpty && (start.redownloading first
          (released ++ (waiting ++ more)) (waiting ++ more) rest').process_all_remaining) && full⟩,
          start.redownloading first (released ++ (waiting ++ more)) ((waiting ++ more).drop k) rest') := by
      rw [process_redownload, ← Prod.mk.eta (p := loop _ _ _), hrun, ht]
      dsimp only
      rw [pop_headers_ready_for_acceptance, hk]
      rfl
    have hsplit : released ++ (waiting ++ more) =
      released ++ (waiting ++ more).take k ++ (waiting ++ more).drop k := by
      rw [List.append_assoc, List.take_append_drop]
    have hdrop := ready_drop start first (released ++ (waiting ++ more)) (waiting ++ more) rest'
    have hsafe' := hsafe.redownload ((waiting ++ more).take k) proved hchain hm (List.take_prefix _ _) fun hlt => by
      rw [← hk]
      exact ready_take hlt first (waiting ++ more) rest'
    rw [hproc, finish]
    refine ⟨?_, hsafe'⟩
    split
    · rw [hsplit] at hm ⊢
      rw [hk] at hdrop
      exact .redownload hlen hdrop hm proved
    · exact .finalize start _ _
  · have hproc : ∃ t, s.process_redownload received full =
        (⟨[], false, false⟩, t) := by
      rw [process_redownload, ← Prod.mk.eta (p := loop _ _ _), hrun]
      exact ⟨_, rfl⟩
    obtain ⟨t, hproc⟩ := hproc
    rw [hproc, finish]
    refine ⟨.finalize start _ _, ?_⟩
    simpa using hsafe.redownload [] proved hchain hm List.nil_prefix fun _ => Or.inl rfl

theorem process_next_nil (s : HeadersSyncState) (full : Bool) :
    s.process_next_headers [] full = (⟨[], false, false⟩, s) := rfl

theorem process_next_final (h : s.phase = .Final) (received : List BlockHeader) (full : Bool) :
    s.process_next_headers received full = (⟨[], false, false⟩, s) := by
  rw [process_next_headers, h]
  split <;> rfl

theorem Fed.live (hf : Fresh start) (fed : Fed start s h) : Live start s h ∧ Safe start h := by
  induction fed with
  | new =>
    constructor
    · have hnew : Live start (start.presynced []) ⟨[], [], []⟩ := .presync (Nat.zero_le _)
      rwa [hf.presynced] at hnew
    · exact ⟨trivial, trivial, List.prefix_rfl, fun hne => absurd rfl hne, fun _ => Or.inl rfl,
        fun _ => List.prefix_rfl⟩
  | @next s h fed received full continuous ih =>
    by_cases hne : received = []
    · subst hne
      have hnext : h.next s [] full = h := by
        simp [History.next, presync_taken, taken, process_next_nil]
      rw [hnext, process_next_nil]
      exact ih
    · obtain ⟨hlive, hsafe⟩ := ih
      cases hlive with
      | presync bounded =>
        obtain ⟨hl, hr, ho, hc⟩ := Live.next_presync hf bounded hsafe.presynced hne continuous full
        refine ⟨hl, hc, ?_, ?_, ?_, fun _ => Or.inl ho, fun _ => ?_⟩
        · rw [hr]
          trivial
        · rw [ho]
          exact List.nil_prefix
        · rw [hr]
          exact fun h => absurd rfl h
        · rw [hr]
          exact List.nil_prefix
      | redownload bounded buffer matched proved =>
        exact Live.next_redownload bounded matched proved hsafe hne full
      | final phase bits waiting =>
        have hnext : h.next s received full = h := by
          simp [History.next, phase, process_next_final phase]
        rw [hnext, process_next_final phase]
        exact ⟨.final phase bits waiting, hsafe⟩

def inside (s : HeadersSyncState) (headers : List BlockHeader) : HeadersSyncState :=
  match s.phase with
  | .Presync => (loop validate_and_process_single_header s headers).2
  | .Redownload => (loop validate_and_store_redownloaded_header s headers).2
  | .Final => s

theorem Live.bounded (hf : Fresh start) (hl : Live start s h) : s.header_commitments.length ≤ start.max_commitments ∧
      s.redownloaded_headers.length ≤ start.sync_params.redownload_buffer_size := by
  cases hl with
  | presync bounded =>
    refine ⟨bounded, ?_⟩
    change start.redownloaded_headers.length ≤ _
    rw [hf.waiting]
    exact Nat.zero_le _
  | redownload bounded buffer matched proved => exact ⟨bounded, buffer⟩
  | final phase bits waiting =>
    rw [bits, waiting]
    exact ⟨Nat.zero_le _, Nat.zero_le _⟩

theorem Live.inside (hf : Fresh start) (hl : Live start s h) (headers : List BlockHeader) :
    (s.inside headers).header_commitments.length ≤ start.max_commitments + 1 ∧
      (s.inside headers).redownloaded_headers.length
        ≤ start.sync_params.redownload_buffer_size + headers.length := by
  have hb := hl.bounded hf
  unfold HeadersSyncState.inside
  split
  · next hphase =>
    have hwaiting := loop_le validate_and_process_single_header (f := fun s => s.redownloaded_headers.length)
      (c := 0) (fun s header => by rw [(validate_single_length s header).2]; rfl) s headers
    refine ⟨?_, by omega⟩
    cases hl with
    | presync bounded =>
      have hloop := loop_keeps (P := fun hs s => ∃ first, s = start.presynced first
          ∧ s.header_commitments.length ≤ start.max_commitments)
        (fun hs s a t hs' ht => by
          obtain ⟨first, rfl, hlen⟩ := hs'
          exact ⟨_, presynced_step hlen ht⟩) (h := []) ⟨_, rfl, bounded⟩ headers
      rcases hloop with ⟨-, first, hfirst, hlen⟩ | ⟨u, a, ⟨first, -, hlen⟩, -, hstep, -⟩
      · omega
      · have hone := (validate_single_length u a).1
        rw [hstep] at hone
        dsimp only at hone
        omega
    | redownload => cases hphase
    | final phase =>
      rw [phase] at hphase
      cases hphase
  · have hbits := loop_le validate_and_store_redownloaded_header
      (f := fun s => s.header_commitments.length) (c := 0) (fun s header => (validate_redownloaded_length s header).1)
      s headers
    have hwaiting := loop_le validate_and_store_redownloaded_header
      (f := fun s => s.redownloaded_headers.length) (c := 1)
      (fun s header => (validate_redownloaded_length s header).2) s headers
    omega
  · omega

theorem released_safe (tree : HeaderTree) (chain_start : HeaderNode) (params : Params)
    (sync_params : HeadersSyncParams) (minimum_required_work now : ℕ) (salt : List UInt8)
    (fed : Fed (new tree chain_start params sync_params minimum_required_work now salt) s h) :
    let start := new tree chain_start params sync_params minimum_required_work now salt
    (ChainFrom chain_start.hash h.released ∧ ChainFrom chain_start.hash h.redownloaded
        ∧ h.released <+: h.redownloaded) ∧
      (h.released ≠ [] → ChainFrom chain_start.hash h.presynced
        ∧ minimum_required_work ≤ chain_start.chainwork + batch_work h.presynced) ∧
      (chain_start.chainwork + batch_work h.redownloaded < minimum_required_work →
        (∀ i < h.released.length, i + sync_params.redownload_buffer_size < h.redownloaded.length)
          ∧ start.commitments chain_start.height h.redownloaded <+:
            start.commitments chain_start.height h.presynced) ∧
      (∀ received headers, headers <+: received →
        (s.inside headers).header_commitments.length ≤ start.max_commitments + 1
          ∧ (s.inside headers).redownloaded_headers.length
            ≤ sync_params.redownload_buffer_size + received.length) ∧
      (s.phase = .Final → ∀ received full, s.process_next_headers received full = (⟨[], false, false⟩, s)) := by
  intro start
  have hf : Fresh start := fresh_new tree chain_start params sync_params minimum_required_work now salt
  obtain ⟨hlive, hsafe⟩ := fed.live hf
  refine ⟨⟨?_, hsafe.redownloaded, hsafe.order⟩, fun hne => ⟨hsafe.presynced, ?_⟩, fun hlt => ⟨fun i hi => ?_, ?_⟩,
    fun received headers hp => ?_, fun hphase received full => process_next_final hphase received full⟩
  · obtain ⟨rest, hrest⟩ := hsafe.order
    have hall := hsafe.redownloaded
    rw [← hrest] at hall
    exact (chainFrom_append.mp hall).1
  · apply hsafe.proved
    intro hnil
    have hprefix := hsafe.order
    rw [hnil] at hprefix
    exact hne (List.prefix_nil.mp hprefix)
  · rcases hsafe.buffered hlt with hnil | hlen
    · rw [hnil] at hi
      exact absurd hi (Nat.not_lt_zero i)
    · change h.released.length + sync_params.redownload_buffer_size ≤ _ at hlen
      omega
  · exact hsafe.matched hlt
  · obtain ⟨hbits, hwaiting⟩ := hlive.inside hf headers
    have hlen := hp.length_le
    change _ ≤ sync_params.redownload_buffer_size + _ at hwaiting
    exact ⟨hbits, by omega⟩

end HeadersSyncState

end

namespace HeadersSyncState

section

attribute [local instance] Platform.sample

def sample_start : HeadersSyncState :=
  new (HeaderTree.new sample_params) ⟨sample_params.genesis_header, 0, 2, 1, 1, none⟩ sample_params ⟨1, 1⟩ 6 10000 []

def sample_batches : List (List BlockHeader) :=
  let first := ⟨1, 1, 0, 2, 0x207fffff, 2⟩
  let second := ⟨1, 2, 0, 3, 0x207fffff, 3⟩
  [[first, second], [first], [second]]

def sample_next (p : HeadersSyncState × History) (received : List BlockHeader) : HeadersSyncState × History :=
  ((p.1.process_next_headers received true).2, p.2.next p.1 received true)

theorem fed_sample_next {p : HeadersSyncState × History} (h : Fed sample_start p.1 p.2) (hc : Continuous received) :
    Fed sample_start (sample_next p received).1 (sample_next p received).2 :=
  .next h received true hc

def sample_end : HeadersSyncState × History := sample_batches.foldl sample_next (sample_start, ⟨[], [], []⟩)

theorem fed_sample_end : Fed sample_start sample_end.1 sample_end.2 := by
  have hone : Fed sample_start sample_start ⟨[], [], []⟩ := .new
  unfold sample_end sample_batches
  simp only [List.foldl_cons, List.foldl_nil]
  refine fed_sample_next (fed_sample_next (fed_sample_next hone ?_) ?_) ?_
  · exact .cons_cons rfl (.singleton _)
  · exact .singleton _
  · exact .singleton _

theorem released_safe_two : sample_end.2.released.length = 2 ∧ sample_end.2.released <+: sample_end.2.redownloaded ∧
    6 ≤ 2 + batch_work sample_end.2.presynced := by
  have hsafe := released_safe (HeaderTree.new sample_params) ⟨sample_params.genesis_header, 0, 2, 1, 1, none⟩
    sample_params ⟨1, 1⟩ 6 10000 [] fed_sample_end
  have hlen : sample_end.2.released.length = 2 := by decide +kernel
  refine ⟨hlen, hsafe.1.2.2, (hsafe.2.1 ?_).2⟩
  intro hnil
  rw [hnil] at hlen
  cases hlen

end

end HeadersSyncState

end AvilaNode
