import AvilaNode.FailedAdmission

/-! The sweep over the parked orphans: the calls of `accept_tx` and of its loop, to their end. -/

namespace AvilaNode

open Layers

namespace Mempool

def Resolved {α : Type} (r : Except MempoolReject α) : Prop := r ≠ .error .InputsMissingOrSpent

theorem Resolved.bind {α β : Type} {x : Except MempoolReject α} {f : α → Except MempoolReject β} (hx : Resolved x)
    (hf : ∀ a, Resolved (f a)) : Resolved (x >>= f) := by
  cases x with
  | error e =>
    intro h
    cases h
    exact hx rfl
  | ok a => exact hf a

theorem resolved_require {ok : Bool} {reject : MempoolReject} (h : reject ≠ .InputsMissingOrSpent) :
    Resolved (require ok reject) := by
  unfold require
  split
  · exact nofun
  · rintro ⟨⟩
    exact h rfl

theorem resolved_standard (verdict : Except String Unit) : Resolved (standard verdict) := by
  cases verdict <;> exact nofun

section

variable [Platform]

theorem resolved_fee (tx : Transaction) (spent : List Coin) (next_height : ℕ) :
    Resolved (check_fee tx spent next_height) := by
  unfold check_fee
  split <;> exact nofun

theorem resolved_locks (cs : Chainstate) (tx : Transaction) (spent : List Coin) (next_height : ℕ) :
    Resolved (check_locks cs tx spent next_height) := by
  unfold check_locks
  split
  · split
    · exact nofun
    · split <;> exact nofun
  · exact nofun

theorem resolved_scripts (tx : Transaction) (spent : List Coin) (flags : ScriptFlags) :
    Resolved (check_scripts tx spent flags) := by
  unfold check_scripts
  split <;> exact nofun

omit [Platform] in
theorem resolved_truc (m : Mempool) (tx : Transaction) (vsize : ℕ) (conflicts : List Txid) :
    Resolved (m.truc_conflicts tx vsize conflicts) := by
  unfold truc_conflicts
  split <;> exact nofun

omit [Platform] in
theorem resolved_replacement (m : Mempool) (ancestors conflicts : List Txid) :
    Resolved (m.check_replacement ancestors conflicts) := by
  unfold check_replacement
  split
  · exact nofun
  · dsimp only
    split
    · exact nofun
    · split <;> exact nofun

omit [Platform] in
theorem resolved_package (m : Mempool) (ancestors : List Txid) (vsize : ℕ) :
    Resolved (m.check_package ancestors vsize) := by
  unfold check_package
  split
  · exact nofun
  · split
    · exact nofun
    · split <;> exact nofun

omit [Platform] in
theorem resolved_bump (m : Mempool) (conflicts : List Txid) (fee : ℤ) (vsize : ℕ) :
    Resolved (m.check_bump conflicts fee vsize) := by
  unfold check_bump
  split
  · exact nofun
  · split <;> exact nofun

variable [PoolPolicy]

theorem resolved_alone (m : Mempool) (tx : Transaction) : Resolved (m.check_alone tx) := by
  unfold check_alone
  split
  · exact nofun
  split
  · exact nofun
  split
  · exact nofun
  split
  · exact nofun
  · split
    · exact (resolved_standard _).bind fun _ => resolved_require (by decide)
    · exact nofun

omit [Platform] in
theorem resolved_standard_inputs (m : Mempool) (tx : Transaction) (spent : List Coin) :
    Resolved (m.check_standard_inputs tx spent) := by
  unfold check_standard_inputs
  split
  · refine (resolved_standard _).bind fun _ => ?_
    split
    · exact resolved_standard _
    · exact nofun
  · exact nofun

omit [Platform] in
theorem resolved_ephemeral (m : Mempool) (tx : Transaction) (fee modified_fee : ℤ) :
    Resolved (m.check_ephemeral tx fee modified_fee) := by
  unfold check_ephemeral
  split
  · exact resolved_standard _
  · exact nofun

theorem examine_resolved {m : Mempool} {tx : Transaction} {cs : Chainstate} {spent : List Coin}
    (h : m.resolve_inputs cs tx.inputs = some spent) (now : ℕ) : Resolved (m.examine tx cs now) := by
  unfold examine
  refine (resolved_alone m tx).bind fun _ => ?_
  rw [h]
  refine (resolved_standard_inputs m tx spent).bind fun _ => (resolved_require (by decide)).bind fun _ => ?_
  refine (resolved_require (by decide)).bind fun _ => (resolved_truc m tx _ _).bind fun conflicts => ?_
  refine (resolved_replacement m _ conflicts).bind fun _ => (resolved_package m _ _).bind fun _ => ?_
  refine (resolved_fee tx spent _).bind fun fee => (resolved_ephemeral m tx fee _).bind fun _ => ?_
  refine (resolved_bump m conflicts fee _).bind fun _ => (resolved_locks cs tx spent _).bind fun _ => ?_
  refine (resolved_scripts tx spent _).bind fun _ => (resolved_require (by decide)).bind fun _ => ?_
  exact (resolved_require (by decide)).bind fun _ => nofun

mutual

def accept_within (order : Mempool → List Transaction) (cs : Chainstate) (now : ℕ) :
    ℕ → Mempool → Transaction → Option (Except MempoolReject Txid × Mempool)
  | 0, _, _ => none
  | fuel + 1, m, tx =>
    match m.accept_one tx cs now with
    | (.ok txid, m) => (sweep_within order cs now fuel m).map fun m => (.ok txid, m)
    | (.error e, m) => some (.error e, m)

def sweep_within (order : Mempool → List Transaction) (cs : Chainstate) (now : ℕ) : ℕ → Mempool → Option Mempool
  | 0, _ => none
  | fuel + 1, m =>
    let ready := order m
    if ready.isEmpty then some m
    else (readmit_within order cs now fuel ready m).bind fun m => sweep_within order cs now fuel m

def readmit_within (order : Mempool → List Transaction) (cs : Chainstate) (now : ℕ) :
    ℕ → List Transaction → Mempool → Option Mempool
  | 0, _, _ => none
  | _ + 1, [], m => some m
  | fuel + 1, orphan :: orphans, m =>
    (accept_within order cs now fuel (m.drop_orphan (Platform.txid orphan)) orphan).bind fun p =>
      readmit_within order cs now fuel orphans p.2

end

structure OrphansKept (m : Mempool) : Prop where
  keyed : ∀ id orphan, m.orphans.lookup id = some orphan → Platform.txid orphan.tx = id
  few : m.orphans.keys.length ≤ MAX_ORPHANS

omit [PoolPolicy] in
theorem OrphansKept.same {m t : Mempool} (h : OrphansKept m) (hs : t.orphans = m.orphans) : OrphansKept t :=
  ⟨by rw [hs]; exact h.keyed, by rw [hs]; exact h.few⟩

variable {p : ℕ × Mempool} {orphan : Transaction} {V : Type} (t : Table Txid V)

omit [Platform] [PoolPolicy] in
theorem length_keys_erase (id : Txid) : (t.erase id).keys.length ≤ t.keys.length := by
  rw [AList.keys_erase]
  exact List.length_erase_le

omit [PoolPolicy] in
theorem OrphansKept.drop {m : Mempool} (h : OrphansKept m) (id : Txid) : OrphansKept (m.drop_orphan id) where
  keyed j orphan hj := by
    change (m.orphans.erase id).lookup j = _ at hj
    rw [lookup_erase_eq] at hj
    split at hj
    · cases hj
    · exact h.keyed j orphan hj
  few := (length_keys_erase m.orphans id).trans h.few

omit [Platform] [PoolPolicy] in
theorem expire_orphans_lookup {m : Mempool} {now : ℕ} {id : Txid} {orphan : OrphanEntry}
    (h : (m.expire_orphans now).orphans.lookup id = some orphan) : m.orphans.lookup id = some orphan := by
  unfold expire_orphans at h
  rw [lookup_eraseAll] at h
  split at h
  · cases h
  · exact h

omit [Platform] [PoolPolicy] in
theorem length_keys_insert (id : Txid) (v : V) :
    (t.insert id v).keys.length ≤ t.keys.length + 1 := by
  rw [AList.keys_insert, List.length_cons]
  exact Nat.succ_le_succ List.length_erase_le

omit [Platform] [PoolPolicy] in
theorem length_keys_eraseAll (ids : List Txid) (t : Table Txid V) :
    (eraseAll t ids).keys.length ≤ t.keys.length := by
  induction ids generalizing t with
  | nil => exact le_refl _
  | cons id ids ih => exact (ih _).trans (length_keys_erase t id)

variable {tx : Transaction}

omit [PoolPolicy] in
theorem park_orphan_lookup {m : Mempool} {now : ℕ} {id : Txid} {orphan : OrphanEntry}
    (h : (m.park_orphan tx now).orphans.lookup id = some orphan) :
    m.orphans.lookup id = some orphan ∨ id = Platform.txid tx ∧ orphan.tx = tx := by
  unfold park_orphan at h
  dsimp only at h
  split at h
  · exact .inl (expire_orphans_lookup h)
  dsimp only at h
  rw [lookup_insert_eq] at h
  split at h
  · next hid =>
    cases h
    exact .inr ⟨hid, rfl⟩
  · suffices hexpired : (m.expire_orphans now).orphans.lookup id = some orphan from
      .inl (expire_orphans_lookup hexpired)
    split at h
    · split at h
      · rw [lookup_erase_eq] at h
        split at h
        · cases h
        · exact h
      · exact h
    · exact h

omit [Platform] [PoolPolicy] in
theorem oldest_orphan_mem {rows : List (Txid × OrphanEntry)} (h : rows ≠ []) :
    ∃ row ∈ rows, oldest_orphan rows = some row := by
  induction rows with
  | nil => exact absurd rfl h
  | cons row rows ih =>
    unfold oldest_orphan
    cases hbest : oldest_orphan rows with
    | none => exact ⟨row, List.mem_cons_self, rfl⟩
    | some best =>
      dsimp only
      split
      · have hne : rows ≠ [] := by
          rintro rfl
          cases hbest
        obtain ⟨row', hmem, hrow⟩ := ih hne
        cases hbest.symm.trans hrow
        exact ⟨best, List.mem_cons_of_mem _ hmem, rfl⟩
      · exact ⟨row, List.mem_cons_self, rfl⟩

omit [PoolPolicy] in
theorem park_orphan_few {m : Mempool} (h : m.orphans.keys.length ≤ MAX_ORPHANS) (tx : Transaction) (now : ℕ) :
    (m.park_orphan tx now).orphans.keys.length ≤ MAX_ORPHANS := by
  have hexpired : (m.expire_orphans now).orphans.keys.length ≤ MAX_ORPHANS :=
    (length_keys_eraseAll _ m.orphans).trans h
  unfold park_orphan
  dsimp only
  split
  · exact hexpired
  refine (length_keys_insert _ _ _).trans ?_
  split
  · next hfull =>
    have hrows : toList (m.expire_orphans now).orphans ≠ [] := by
      intro hnil
      rw [keys_eq_toList, hnil] at hfull
      exact absurd hfull (by decide)
    obtain ⟨row, hrow, holdest⟩ := oldest_orphan_mem hrows
    have hkey : row.1 ∈ (m.expire_orphans now).orphans.keys := by
      rw [keys_eq_toList]
      exact List.mem_map_of_mem hrow
    rw [holdest]
    rw [AList.keys_erase, List.length_erase_of_mem hkey]
    have hpos := List.length_pos_of_mem hkey
    omega
  · next hroom => exact Nat.lt_of_not_le hroom

omit [PoolPolicy] in
theorem OrphansKept.park {m : Mempool} (h : OrphansKept m) (tx : Transaction) (now : ℕ) :
    OrphansKept (m.park_orphan tx now) where
  keyed id orphan hid := by
    rcases park_orphan_lookup hid with hid | ⟨rfl, rfl⟩
    · exact h.keyed id orphan hid
    · rfl
  few := park_orphan_few h.few tx now

theorem enter_orphans (m : Mempool) (tx : Transaction) (cs : Chainstate) (c : Candidate) (now : ℕ) :
    (m.enter tx cs c now).2.orphans = m.orphans ∧ (m.enter tx cs c now).2.last_expire = m.last_expire := by
  cases hrun : m.enter tx cs c now with
  | mk r t =>
    cases r with
    | error e =>
      have hshrinks := Shrinks.trim c tx.encode.length now (m.len + 1) none m
      rw [enter_error hrun] at hshrinks
      exact ⟨hshrinks.orphans, hshrinks.last_expire⟩
    | ok id =>
      obtain ⟨high, trimmed, htrim, rfl⟩ := enter_ok hrun
      have hshrinks := Shrinks.entered htrim
      rw [(SumsOnly.pool_entry _ tx cs c now).rest]
      exact ⟨hshrinks.orphans, hshrinks.last_expire⟩

omit [PoolPolicy] in
theorem sweep_orphans (m : Mempool) (now : ℕ) :
    (m.sweep now).orphans = m.orphans ∧ now - (m.sweep now).last_expire < 60 := by
  unfold sweep
  split
  · have hshrinks : Shrinks { m with last_expire := now } (expire { m with last_expire := now } now) :=
      expire_keeps (P := Shrinks { m with last_expire := now })
        (fun t id h => h.trans (.remove_recursive t id _ _ _)) (.refl _)
    refine ⟨hshrinks.orphans, ?_⟩
    rw [hshrinks.last_expire, Nat.sub_self]
    decide
  · next hdue => exact ⟨rfl, Nat.lt_of_not_le hdue⟩

theorem accept_one_orphans (m : Mempool) (tx : Transaction) (cs : Chainstate) (now : ℕ) :
    (m.accept_one tx cs now).2.orphans = m.orphans ∨
      (m.sweep now).resolve_inputs cs tx.inputs = none ∧ (m.accept_one tx cs now).2.orphans =
        ((m.sweep now).park_orphan tx now).orphans := by
  obtain ⟨hsweep, -⟩ := sweep_orphans m now
  unfold accept_one
  split
  · dsimp only
    split
    · next hmissing =>
      refine .inr ⟨?_, rfl⟩
      cases hspent : (m.sweep now).resolve_inputs cs tx.inputs with
      | none => rfl
      | some spent => exact absurd hmissing (examine_resolved hspent now)
    · exact .inl hsweep
    · exact .inl ((enter_orphans _ tx cs _ now).1.trans hsweep)
  · exact .inl rfl

theorem accept_one_swept {m : Mempool} {tx : Transaction} {cs : Chainstate} {now : ℕ}
    (h : now - m.last_expire < 60 ∨ PoolPolicy.admit_hook tx) : now - (m.accept_one tx cs now).2.last_expire <
      60 := by
  have hsweep := (sweep_orphans m now).2
  unfold accept_one
  split
  · dsimp only
    split
    · have hpark : ((m.sweep now).park_orphan tx now).last_expire = (m.sweep now).last_expire := by
        unfold park_orphan
        dsimp only
        split <;> rfl
      rw [hpark]
      exact hsweep
    · exact hsweep
    · rw [(enter_orphans _ tx cs _ now).2]
      exact hsweep
  · next hook => exact h.resolve_right hook

theorem OrphansKept.accept_one {m : Mempool} (h : OrphansKept m) (tx : Transaction) (cs : Chainstate) (now : ℕ) :
    OrphansKept (m.accept_one tx cs now).2 := by
  rcases accept_one_orphans m tx cs now with hsame | ⟨-, hpark⟩
  · exact h.same hsame
  · exact ((h.same (sweep_orphans m now).1).park tx now).same hpark

/-- Within the calls of one admission: the entries are swept for age, and the orphans are among some. -/
structure Sweeping (now : ℕ) (ids : Finset Txid) (m : Mempool) : Prop where
  kept : OrphansKept m
  among : ∀ id orphan, m.orphans.lookup id = some orphan → id ∈ ids
  swept : now - m.last_expire < 60

variable {cs : Chainstate} {now : ℕ} {ids : Finset Txid} {m : Mempool}

omit [PoolPolicy] in
theorem Sweeping.drop (h : Sweeping now ids m) (id : Txid) : Sweeping now (ids.erase id) (m.drop_orphan id) where
  kept := h.kept.drop id
  among j orphan hj := by
    change (m.orphans.erase id).lookup j = _ at hj
    rw [lookup_erase_eq] at hj
    split at hj
    · cases hj
    · next hne => exact Finset.mem_erase.mpr ⟨hne, h.among j orphan hj⟩
  swept := h.swept

omit [PoolPolicy] in
theorem Sweeping.mono {ids' : Finset Txid} (h : Sweeping now ids m) (hsub : ids ⊆ ids') : Sweeping now ids' m :=
  ⟨h.kept, fun id orphan hid => hsub (h.among id orphan hid), h.swept⟩

omit [PoolPolicy] in
theorem resolve_inputs_of_all {inputs : List TxIn}
    (h : ∀ input ∈ inputs, (m.resolve cs input.previous_output).isSome) : ∃ spent,
      m.resolve_inputs cs inputs = some spent := by
  induction inputs with
  | nil => exact ⟨[], rfl⟩
  | cons input inputs ih =>
    obtain ⟨coin, hcoin⟩ := Option.isSome_iff_exists.mp (h input List.mem_cons_self)
    obtain ⟨spent, hspent⟩ := ih fun i hi => h i (List.mem_cons_of_mem _ hi)
    refine ⟨coin :: spent, ?_⟩
    rw [resolve_inputs, hcoin]
    rw [hspent]
    rfl

theorem Sweeping.accept_one (h : Sweeping now ids m)
    (htx : Platform.txid tx ∈ ids ∨ ∀ input ∈ tx.inputs, (m.resolve cs input.previous_output).isSome) :
    Sweeping now ids (m.accept_one tx cs now).2 where
  kept := h.kept.accept_one tx cs now
  swept := accept_one_swept (.inl h.swept)
  among id orphan hid := by
    rcases accept_one_orphans m tx cs now with hsame | ⟨hnone, hpark⟩
    · rw [hsame] at hid
      exact h.among id orphan hid
    rw [sweep_not_due h.swept] at hnone hpark
    rw [hpark] at hid
    rcases park_orphan_lookup hid with hid | ⟨rfl, -⟩
    · exact h.among id orphan hid
    · refine htx.elim id fun hall => ?_
      obtain ⟨spent, hspent⟩ := resolve_inputs_of_all hall
      rw [hspent] at hnone
      cases hnone

omit [PoolPolicy] in
theorem mem_ready : tx ∈ m.ready cs ↔ (∃ id orphan, m.orphans.lookup id = some orphan ∧ orphan.tx = tx) ∧
      ∀ input ∈ tx.inputs, (m.resolve cs input.previous_output).isSome := by
  unfold ready
  rw [List.mem_filter, List.all_eq_true, List.mem_map]
  refine and_congr_left' ⟨?_, ?_⟩
  · rintro ⟨⟨id, orphan⟩, hrow, htx⟩
    exact ⟨id, orphan, mem_toList.mp hrow, htx⟩
  · rintro ⟨id, orphan, hid, htx⟩
    exact ⟨(id, orphan), mem_toList.mpr hid, htx⟩

omit [PoolPolicy] in
theorem OrphansKept.ready_nodup (h : OrphansKept m) (cs : Chainstate) : ((m.ready cs).map Platform.txid).Nodup := by
  have hids : ((toList m.orphans).map fun row => row.2.tx).map Platform.txid = m.orphans.keys := by
    rw [keys_eq_toList, List.map_map]
    exact List.map_congr_left fun row hrow => h.keyed row.1 row.2 (mem_toList.mp hrow)
  refine List.Nodup.sublist (List.Sublist.map _ List.filter_sublist) ?_
  rw [hids]
  exact m.orphans.nodupKeys

variable {order : Mempool → List Transaction}

/-- The loop ends, where nothing more resolves; with the orphans in the order of the table and so many rounds it is
`unorphan`. -/
def Ends (order : Mempool → List Transaction) (cs : Chainstate) (now rounds : ℕ) (ids : Finset Txid) (m : Mempool) :
    Prop :=
  ∃ enough t, (∀ fuel, enough ≤ fuel → sweep_within order cs now fuel m = some t) ∧ Sweeping now ids t ∧
    t.ready cs = [] ∧ ((order = fun t => t.ready cs) → ∀ n, rounds ≤ n → unorphan cs now n m = t)

theorem Ends.quiet (horder : ∀ t, (order t).Perm (t.ready cs)) (h : Sweeping now ids m) (hready : m.ready cs = [])
    (rounds : ℕ) : Ends order cs now rounds ids m := by
  have hlist : order m = [] := by
    have hperm := horder m
    rw [hready] at hperm
    exact hperm.eq_nil
  refine ⟨1, m, fun fuel hfuel => ?_, h, hready, fun _ n _ => ?_⟩
  · obtain ⟨fuel, rfl⟩ := Nat.exists_eq_add_of_le' hfuel
    rw [sweep_within, hlist]
    rfl
  · cases n with
    | zero => rfl
    | succ n =>
      rw [unorphan, hready]
      rfl

def Settles (order : Mempool → List Transaction) (cs : Chainstate) (now rounds : ℕ) (ids : Finset Txid) : Prop :=
  ∀ m, Sweeping now ids m → Ends order cs now rounds ids m

theorem readmit_first {rounds : ℕ} (hs : Settles order cs now rounds ids)
    (h : Sweeping now ids ((m.drop_orphan (Platform.txid orphan)).accept_one orphan cs now).2)
    (orphans : List Transaction) : ∃ enough t, Sweeping now ids t ∧
      (∀ fuel, enough ≤ fuel → readmit_within order cs now (fuel + 1) (orphan :: orphans) m =
        readmit_within order cs now fuel orphans t) ∧
      ((order = fun t => t.ready cs) → ∀ n, rounds ≤ n →
        admit_orphans cs now (unorphan cs now n) (orphan :: orphans) m =
        admit_orphans cs now (unorphan cs now n) orphans t) := by
  cases hrun : (m.drop_orphan (Platform.txid orphan)).accept_one orphan cs now with
  | mk r t =>
    rw [hrun] at h
    cases r with
    | error e =>
      refine ⟨1, t, h, fun fuel hfuel => ?_, fun _ n _ => ?_⟩
      · obtain ⟨fuel, rfl⟩ := Nat.exists_eq_add_of_le' hfuel
        rw [readmit_within, accept_within, hrun]
        rfl
      · rw [admit_orphans, hrun]
    | ok id =>
      obtain ⟨enough, u, hends, hu, -, hrounds⟩ := hs t h
      refine ⟨enough + 1, u, hu, fun fuel hfuel => ?_, fun horder n hn => ?_⟩
      · obtain ⟨fuel, rfl⟩ := Nat.exists_eq_add_of_le' (Nat.le_of_add_left_le hfuel)
        rw [readmit_within, accept_within, hrun]
        dsimp only
        rw [hends fuel (by omega)]
        rfl
      · rw [admit_orphans, hrun]
        dsimp only
        rw [hrounds horder n hn]

theorem readmit_ends {rounds : ℕ} (hs : Settles order cs now rounds ids) (orphans : List Transaction)
    (hids : ∀ tx ∈ orphans, Platform.txid tx ∈ ids) (h : Sweeping now ids m) : ∃ enough t, Sweeping now ids t ∧
      (∀ fuel, enough ≤ fuel → readmit_within order cs now fuel orphans m = some t) ∧
      ((order = fun t => t.ready cs) → ∀ n, rounds ≤ n → admit_orphans cs now (unorphan cs now n) orphans m = t) := by
  induction orphans generalizing m with
  | nil =>
    refine ⟨1, m, h, fun fuel hfuel => ?_, fun _ _ _ => rfl⟩
    obtain ⟨fuel, rfl⟩ := Nat.exists_eq_add_of_le' hfuel
    rw [readmit_within]
  | cons orphan orphans ih =>
    have hdropped : Sweeping now ids (m.drop_orphan (Platform.txid orphan)) :=
      (h.drop _).mono (Finset.erase_subset _ _)
    obtain ⟨enough, t, ht, hfirst, hrounds⟩ :=
      readmit_first hs (hdropped.accept_one (.inl (hids orphan List.mem_cons_self))) orphans
    obtain ⟨enough', u, hu, hrest, hrounds'⟩ := ih (fun tx htx => hids tx (List.mem_cons_of_mem _ htx)) ht
    refine ⟨enough + enough' + 1, u, hu, fun fuel hfuel => ?_, fun horder n hn => ?_⟩
    · obtain ⟨fuel, rfl⟩ := Nat.exists_eq_add_of_le' (Nat.le_of_add_left_le hfuel)
      rw [hfirst fuel (by omega), hrest fuel (by omega)]
    · rw [hrounds horder n hn, hrounds' horder n hn]

omit [PoolPolicy] in
theorem Sweeping.ready_first (h : Sweeping now ids m) {orphans : List Transaction}
    (hready : (orphan :: orphans).Perm (m.ready cs)) : Platform.txid orphan ∈ ids ∧
      (∀ input ∈ orphan.inputs, (m.resolve cs input.previous_output).isSome) ∧
      ∀ tx ∈ orphans, Platform.txid tx ∈ ids.erase (Platform.txid orphan) := by
  have hids : ∀ tx ∈ orphan :: orphans, Platform.txid tx ∈ ids := by
    intro tx htx
    obtain ⟨⟨id, entry, hid, rfl⟩, -⟩ := mem_ready.mp (hready.mem_iff.mp htx)
    rw [h.kept.keyed id entry hid]
    exact h.among id entry hid
  have hnodup := (hready.map Platform.txid).nodup_iff.mpr (h.kept.ready_nodup cs)
  rw [List.map_cons, List.nodup_cons] at hnodup
  refine ⟨hids orphan List.mem_cons_self, (mem_ready.mp (hready.mem_iff.mp List.mem_cons_self)).2, fun tx htx => ?_⟩
  refine Finset.mem_erase.mpr ⟨fun heq => hnodup.1 ?_, hids tx (List.mem_cons_of_mem _ htx)⟩
  rw [← heq]
  exact List.mem_map_of_mem htx

theorem settles (horder : ∀ t, (order t).Perm (t.ready cs)) (now rounds : ℕ) (ids : Finset Txid)
    (hcard : ids.card ≤ rounds) : Settles order cs now rounds ids := by
  induction rounds generalizing ids with
  | zero =>
    intro m h
    have hready : m.ready cs = [] := by
      refine List.eq_nil_iff_forall_not_mem.mpr fun tx htx => ?_
      obtain ⟨⟨id, entry, hid, -⟩, -⟩ := mem_ready.mp htx
      have hmem := h.among id entry hid
      rw [Finset.card_eq_zero.mp (Nat.le_zero.mp hcard)] at hmem
      exact absurd hmem (Finset.notMem_empty id)
    exact .quiet horder h hready 0
  | succ rounds ih =>
    intro m h
    have hperm := horder m
    cases hlist : order m with
    | nil =>
      rw [hlist] at hperm
      exact .quiet horder h hperm.symm.eq_nil (rounds + 1)
    | cons orphan orphans =>
      rw [hlist] at hperm
      obtain ⟨hmem, hresolves, hrest⟩ := h.ready_first hperm
      have hs := ih (ids.erase (Platform.txid orphan)) (by rw [Finset.card_erase_of_mem hmem]; omega)
      obtain ⟨enough, t, ht, hfirst, hrounds⟩ :=
        readmit_first hs ((h.drop _).accept_one (.inr hresolves)) orphans
      obtain ⟨enough', u, hu, hlater, hrounds'⟩ := readmit_ends hs orphans hrest ht
      obtain ⟨enough'', v, hends, hv, hquiet, hrounds''⟩ := hs u hu
      refine ⟨enough + enough' + enough'' + 2, v, fun fuel hfuel => ?_, hv.mono (Finset.erase_subset _ _), hquiet, ?_⟩
      · obtain ⟨fuel, rfl⟩ := Nat.exists_eq_add_of_le' (Nat.le_of_add_left_le hfuel)
        rw [sweep_within, hlist]
        dsimp only [List.isEmpty_cons]
        rw [if_neg Bool.false_ne_true, hfirst fuel (by omega), hlater fuel (by omega), Option.bind_some]
        exact hends (fuel + 1) (by omega)
      · intro heq n hn
        obtain ⟨n, rfl⟩ := Nat.exists_eq_add_of_le' (Nat.le_of_add_left_le hn)
        have hready : m.ready cs = orphan :: orphans := by
          rw [← hlist, heq]
        rw [unorphan, hready]
        dsimp only [List.isEmpty_cons]
        rw [if_neg Bool.false_ne_true, hrounds heq n (by omega), hrounds' heq n (by omega)]
        exact hrounds'' heq n (by omega)

/-- An admission ends, in any order of the orphans; after one that succeeds no orphan resolves. In the order of the
table it is `accept_tx`. -/
theorem accept_within_ends (horder : ∀ t, (order t).Perm (t.ready cs)) (hm : OrphansKept m) (tx : Transaction)
    (now : ℕ) : ∃ enough r t, (∀ fuel, enough ≤ fuel → accept_within order cs now fuel m tx = some (r, t)) ∧
      OrphansKept t ∧ ((∃ txid, r = .ok txid) → t.ready cs = []) ∧
      ((order = fun t => t.ready cs) → (r, t) = m.accept_tx tx cs now) := by
  have hkept := hm.accept_one tx cs now
  cases hrun : m.accept_one tx cs now with
  | mk r t =>
    rw [hrun] at hkept
    cases r with
    | error e =>
      refine ⟨1, .error e, t, fun fuel hfuel => ?_, hkept, nofun, fun _ => ?_⟩
      · obtain ⟨fuel, rfl⟩ := Nat.exists_eq_add_of_le' hfuel
        rw [accept_within, hrun]
      · rw [accept_tx, hrun]
    | ok txid =>
      have hswept : now - t.last_expire < 60 := by
        have hhook : PoolPolicy.admit_hook tx := by
          by_contra hhook
          rw [accept_one, if_neg hhook] at hrun
          cases hrun
        have hswept := @accept_one_swept _ _ m tx cs now (.inr hhook)
        rw [hrun] at hswept
        exact hswept
      have hsweeping : Sweeping now t.orphans.keys.toFinset t :=
        ⟨hkept, fun id orphan hid => List.mem_toFinset.mpr (mem_keys_iff.mpr (hid ▸ rfl)), hswept⟩
      obtain ⟨enough, u, hends, hu, hquiet, hrounds⟩ :=
        settles horder now t.orphans.keys.length _ (List.toFinset_card_le _) t hsweeping
      refine ⟨enough + 1, .ok txid, u, fun fuel hfuel => ?_, hu.kept, fun _ => hquiet, fun heq => ?_⟩
      · obtain ⟨fuel, rfl⟩ := Nat.exists_eq_add_of_le' (Nat.le_of_add_left_le hfuel)
        rw [accept_within, hrun]
        dsimp only
        rw [hends fuel (by omega)]
        rfl
      · rw [accept_tx, hrun]
        dsimp only
        rw [hrounds heq _ (le_refl _)]

theorem OrphansKept.accept_tx (h : OrphansKept m) (tx : Transaction) (cs : Chainstate) (now : ℕ) :
    OrphansKept (m.accept_tx tx cs now).2 := by
  obtain ⟨-, r, t, -, ht, -, hrun⟩ := accept_within_ends (fun t => .refl (t.ready cs)) h tx now
  rw [← hrun rfl]
  exact ht

omit [PoolPolicy] in
theorem OrphansKept.shrinks {t : Mempool} (h : OrphansKept m) (hs : Shrinks m t) : OrphansKept t := h.same hs.orphans

theorem OrphansKept.readd (cs : Chainstate) (now : ℕ) (h : OrphansKept p.2) (tx : Transaction) :
    OrphansKept (readd cs now p tx).2 := by
  unfold Mempool.readd
  split
  · exact h
  have haccept := h.accept_tx tx cs now
  split
  · next hrun =>
    rw [hrun] at haccept
    exact haccept
  · next hrun =>
    rw [hrun] at haccept
    refine (haccept.drop (Platform.txid tx)).shrinks ?_
    exact (Shrinks.remove_each _ _ _ _ _).trans (.remove_inner _ _ _ _ _)

theorem OrphansKept.reinsert (cs : Chainstate) (now : ℕ) (txs : List Transaction) (h : OrphansKept p.2) :
    OrphansKept (txs.foldl (Mempool.readd cs now) p).2 := by
  induction txs generalizing p with
  | nil => exact h
  | cons tx txs ih => exact ih (h.readd cs now tx)

theorem OrphansKept.refill (cs : Chainstate) (now : ℕ) (blocks : List Block) (h : OrphansKept p.2) :
    OrphansKept (blocks.foldl
      (fun p block =>
        let q := p.2.reinsert_disconnected block cs now
        (p.1 + q.1, q.2)) p).2 := by
  induction blocks generalizing p with
  | nil => exact h
  | cons block blocks ih => exact ih (.reinsert cs now block.transactions (p := (0, p.2)) h)

omit [Platform] [PoolPolicy] in
theorem prioritise_orphans (m : Mempool) (txid : Txid) (delta : ℤ) : (m.prioritise txid delta).orphans =
    m.orphans := by
  unfold prioritise
  dsimp only
  split
  · rfl
  · rw [(SumsOnly.adjust_all _ _ _ _).rest]
    rfl

omit [PoolPolicy] in
theorem OrphansKept.remove_rows (height : ℕ) (rows : List (Txid × RemovalCause)) (h : OrphansKept m) :
    OrphansKept (rows.foldl (fun m row => m.remove_recursive_inner row.1 row.2 0 height) m) := by
  induction rows generalizing m with
  | nil => exact h
  | cons row rows ih => exact ih (h.shrinks (.remove_recursive m row.1 row.2 0 height))

theorem OrphansKept.apply (h : OrphansKept m) (op : PoolOp) : OrphansKept (op.apply m) := by
  cases op with
  | accept_tx tx cs now => exact h.accept_tx tx cs now
  | expire now =>
    exact h.shrinks (expire_keeps (P := Shrinks m) (fun t id hs => hs.trans (.remove_recursive t id _ _ _)) (.refl m))
  | remove txid => exact h.shrinks (.remove_inner m txid _ _ _)
  | remove_recursive txid => exact h.shrinks (.remove_recursive m txid _ _ _)
  | prioritise txid delta => exact h.same (prioritise_orphans m txid delta)
  | mark_unbroadcast txid => exact h.same rfl
  | clear_unbroadcast txid => exact h.same rfl
  | on_block_connected block conf_height => exact .remove_rows conf_height _ (h.same rfl)
  | reinsert_disconnected block cs now => exact .reinsert cs now block.transactions (p := (0, m)) h
  | refill_from_disconnected disconnected cs now fork_first max_blocks => exact .refill cs now _ (p := (0, m)) h
  | configure settings => exact h.same rfl
  | restore txid time height =>
    refine h.same ?_
    change (m.restore txid time height).orphans = _
    unfold restore
    split <;> rfl

theorem OrphansKept.run (hm : Reachable m) : OrphansKept m := by
  induction hm with
  | new => exact ⟨nofun, Nat.zero_le _⟩
  | step _ op _ ih => exact ih.apply op

end

section

attribute [local instance] Platform.sample PoolPolicy.sample

def sample_parked : Mempool := (new.accept_tx (sample_tx 2 [(1, 0)] [900000]) (sample_chain 1) 0).2

example : (accept_within (fun t => t.ready (sample_chain 1)) (sample_chain 1) 0 5 sample_parked
    (sample_tx 1 [(1000, 0)] [950000])).map (fun p => p.2.len) = some 2 := by decide +kernel

end

end Mempool

end AvilaNode
