import AvilaNode.Psbt

/-! Partially signed transactions: decoding accepts the bytes of proper ones only, and encoding keeps them proper. -/

namespace AvilaNode.Psbt

open ByteReader Decoder

/-- Whatever fails is refused: nothing panics or goes on without end. -/
def Refusing {α : Type} (r : Except Halt α) : Prop := ∀ halt, r = .error halt → ∃ e, halt = .Refused e

@[simp] theorem refusing_ok {α : Type} (a : α) : Refusing (.ok a) := by simp [Refusing]

@[simp] theorem refusing_refused {α : Type} (e : PsbtError) : Refusing (.error (.Refused e) : Except Halt α) := by
  simp [Refusing]

variable (message : String)

@[simp] theorem refusing_refuse : Refusing (refuse message) := refusing_refused _

@[simp] theorem refusing_lift {α : Type} (r : Except DecodeError α) : Refusing (lift r) := by
  cases r <;> simp [lift, Except.mapError]

theorem Refusing.bind {α β : Type} {r : Except Halt α} {next : α → Except Halt β} (h : Refusing r)
    (hn : ∀ a, Refusing (next a)) : Refusing (r >>= next) := by
  cases r with
  | ok a => exact hn a
  | error e => exact fun halt he => h halt (by cases he; rfl)

theorem check_key_refusing (V : List UInt8 → Bool) (scope : Scope) (t : UInt8) (kd : List UInt8) :
    Refusing (check_key V scope t kd) := by
  unfold check_key sized pubkey_keyed
  split <;> (repeat' split) <;> simp

variable (value : List UInt8)

theorem exact_value_refusing (n left : ℕ) : Refusing (exact_value value n left) := by
  unfold exact_value
  (repeat' split) <;> simp

theorem hd_keypath_refusing : Refusing (check_hd_keypath value) := by
  unfold check_hd_keypath
  split <;> simp

theorem tap_keypath_refusing (left : ℕ) :
    Refusing (check_tap_keypath value message left) := by
  refine (refusing_lift _).bind fun p => ?_
  dsimp only
  (repeat' split) <;> simp [hd_keypath_refusing]

theorem whole_refusing {α : Type} (r : Except DecodeError α) : Refusing (whole r) := by
  unfold whole
  split <;> simp

theorem check_value_refusing (scope : Scope) (t : UInt8) (v : List UInt8) (left : ℕ) :
    Refusing (check_value scope t v left) := by
  unfold check_value
  split
  case h_1 =>
    refine (whole_refusing _).bind fun tx => ?_
    split <;> simp
  case h_3 =>
    refine (exact_value_refusing _ _ _).bind fun _ => (refusing_lift _).bind fun _ => ?_
    dsimp only
    split <;> simp
  case h_4 =>
    have h := whole_refusing (Transaction.decode v)
    cases hr : whole (Transaction.decode v) with
    | ok _ => exact refusing_ok _
    | error e =>
      rw [hr] at h
      exact fun halt he => h halt (by cases he; rfl)
  all_goals first
    | exact exact_value_refusing _ _ _
    | exact hd_keypath_refusing _
    | exact tap_keypath_refusing _ _ _
    | exact fun halt h => check_tap_tree_halts h
    | (unfold finished; split <;> (repeat' split) <;> simp)
    | (unfold signature_sized; (repeat' split) <;> simp)
    | (split <;> simp)
    | exact refusing_ok _

theorem exact_value_left {value : List UInt8} {needed left : ℕ} (h : exact_value value needed left = .ok ())
    (left' : ℕ) : exact_value value needed left' = .ok () := by
  unfold exact_value at h ⊢
  split at h
  · next hl => rw [if_pos hl]
  · split at h <;> cases h

theorem tap_keypath_left {value : List UInt8} {message : String} {left : ℕ}
    (h : check_tap_keypath value message left = .ok ()) (left' : ℕ) : check_tap_keypath value message left' =
      .ok () := by
  unfold check_tap_keypath at h ⊢
  cases hr : lift (read_compact_size value) with
  | error e =>
    rw [hr] at h
    cases h
  | ok p =>
    rw [hr] at h
    dsimp only [bind, Except.bind] at h ⊢
    split at h
    · split at h <;> cases h
    · next hn => rwa [if_neg hn]

theorem finished_left {α : Type} {r : Except DecodeError (α × List UInt8)} {fail : DecodeError → PsbtError}
    (h : finished r fail = .ok ()) (fail' : DecodeError → PsbtError) : finished r fail' = .ok () := by
  unfold finished at h ⊢
  split at h
  · cases h
  · exact h

theorem check_value_left {scope : Scope} {t : UInt8} {v : List UInt8} {left : ℕ}
    (h : check_value scope t v left = .ok ())
    (left' : ℕ) : check_value scope t v left' = .ok () := by
  unfold check_value at h ⊢
  split at h
  case h_3 =>
    cases he : exact_value v 4 left with
    | error e =>
      rw [he] at h
      cases h
    | ok u =>
      rw [he] at h
      rw [exact_value_left he left']
      exact h
  all_goals first
    | exact exact_value_left h _
    | exact tap_keypath_left h _
    | exact finished_left h _
    | exact h

variable {e : PsbtError}

section

variable {α β : Type} {bytes rest : List UInt8}

theorem Refusing.bind_read {read : ByteReader Halt α} {next : α → ByteReader Halt β} (h : Refusing (read bytes))
    (hn : ∀ a rest, read bytes = .ok (a, rest) → Refusing (next a rest)) : Refusing ((read >>= next) bytes) := by
  cases hr : read bytes with
  | ok p =>
    obtain ⟨a, rest⟩ := p
    rw [bind_ok hr]
    exact hn a rest hr
  | error e =>
    intro halt he
    rw [hr] at h
    refine h halt ?_
    change (read bytes >>= fun p => next p.1 p.2) = _ at he
    rw [hr] at he
    cases he
    rfl

@[simp] theorem refusing_throw (e : PsbtError) (bytes : List UInt8) :
    Refusing ((throw (.Refused e) : ByteReader Halt α) bytes) := refusing_refused e

theorem lifted_refusing (read : Decoder α) : Refusing (lifted read bytes) := refusing_lift _

variable {r : Except Halt Unit}

theorem require_refusing (h : Refusing r) : Refusing (require r bytes) := by
  cases r with
  | ok _ => exact refusing_ok _
  | error e => exact fun halt he => h halt (by cases he; rfl)

theorem lift_eq_ok {r : Except DecodeError α} {a : α} : lift r = .ok a ↔ r = .ok a := by
  cases r <;> simp [lift, Except.mapError]

variable {read : Decoder α}

theorem lifted_eq_ok {p : α × List UInt8} : lifted read bytes = .ok p ↔ read bytes = .ok p :=
  lift_eq_ok

theorem require_eq_ok {p : Unit × List UInt8} :
    require r bytes = .ok p ↔ r = .ok () ∧ p = ((), bytes) := by
  cases r <;> simp [require, Except.map, eq_comm]

theorem require_ok (h : r = .ok ()) : require r bytes = .ok ((), bytes) :=
  require_eq_ok.mpr ⟨h, rfl⟩

theorem lifted_inverts {write : α → List UInt8} {valid : α → Prop} (h : Inverts read write valid) :
    Inverts (lifted read) write valid where
  read_write rest ha := lifted_eq_ok.mpr (h.read_write rest ha)
  write_read he := h.write_read (lifted_eq_ok.mp he)

theorem counted_eq_ok {maps : List KeyMap} {count : ℕ} :
    counted maps count e = .ok () ↔ maps.length = count := by
  unfold counted
  split <;> simp_all

end

section

variable (pubkey_is_valid : List UInt8 → Bool)

structure Fits (scope : Scope) (pair : Pair) : Prop where
  key_short : pair.1.length ≤ MAX_SIZE
  value_short : pair.2.length ≤ MAX_SIZE
  passes : ∃ key_type kd, pair.1 = key_type :: kd ∧ check_key pubkey_is_valid scope key_type kd = .ok () ∧
    ∀ left, check_value scope key_type pair.2 left = .ok ()

structure Valid (scope : Scope) (map : KeyMap) : Prop where
  fits : ∀ pair ∈ map, Fits pubkey_is_valid scope pair
  distinct : (map.map Prod.fst).Nodup

end

section

variable {pubkey_is_valid : List UInt8 → Bool} {scope : Scope} {map : KeyMap} {bytes rest key : List UInt8}
  {pair : Pair}

theorem lifted_var_bytes_inverts :
    Inverts (lifted read_var_bytes) write_var_bytes (fun bytes => bytes.length ≤ MAX_SIZE) :=
  lifted_inverts read_var_bytes_inverts

theorem read_pair_sound (hk : key.length ≤ MAX_SIZE) (hne : key ≠ [])
    (h : read_pair pubkey_is_valid scope map key bytes = .ok (pair, rest)) :
    pair.1 = key ∧ key ∉ map.map Prod.fst ∧ Fits pubkey_is_valid scope pair ∧
      write_var_bytes pair.2 ++ rest = bytes := by
  cases key with
  | nil => exact absurd rfl hne
  | cons key_type kd =>
    obtain ⟨_, _, hr, h⟩ := bind_eq_ok.mp h
    obtain ⟨hc, he⟩ := require_eq_ok.mp hr
    cases he
    split at h
    · cases h
    · next hfresh =>
      obtain ⟨value, middle, hv, h⟩ := bind_eq_ok.mp h
      obtain ⟨hl, hw⟩ := lifted_var_bytes_inverts.write_read hv
      obtain ⟨left, _, hleft, h⟩ := bind_eq_ok.mp h
      cases hleft
      obtain ⟨_, _, hr, h⟩ := bind_eq_ok.mp h
      obtain ⟨hcv, he⟩ := require_eq_ok.mp hr
      cases he
      cases h
      exact ⟨rfl, hfresh, ⟨hk, hl, key_type, kd, rfl, hc, check_value_left hcv⟩, hw⟩

theorem read_pair_complete (hf : Fits pubkey_is_valid scope pair) (hfresh : pair.1 ∉ map.map Prod.fst) :
    read_pair pubkey_is_valid scope map pair.1 (write_var_bytes pair.2 ++ rest) = .ok (pair, rest) := by
  obtain ⟨key, value⟩ := pair
  obtain ⟨-, hl, key_type, kd, rfl, hc, hcv⟩ := hf
  have hkey : read_pair pubkey_is_valid scope map (key_type :: kd) = (do
      require (check_key pubkey_is_valid scope key_type kd)
      let value ← lifted read_var_bytes
      let left ← remaining
      require (check_value scope key_type value left)
      pure (key_type :: kd, value)) := by
    rw [read_pair, if_neg hfresh]
  rw [hkey, bind_ok (require_ok hc), bind_ok (lifted_var_bytes_inverts.read_write rest hl),
    bind_ok (rfl : remaining rest = .ok (rest.length, rest)), bind_ok (require_ok (hcv _))]
  rfl

theorem read_pair_refusing (hne : key ≠ []) : Refusing (read_pair pubkey_is_valid scope map key bytes) := by
  cases key with
  | nil => exact absurd rfl hne
  | cons key_type kd =>
    refine (require_refusing (check_key_refusing _ _ _ _)).bind_read fun _ rest _ => ?_
    split
    · exact refusing_throw _ _
    · refine (lifted_refusing _).bind_read fun value rest _ => ?_
      refine Refusing.bind_read (refusing_ok _) fun left rest _ => ?_
      exact (require_refusing (check_value_refusing _ _ _ _)).bind_read fun _ _ _ => refusing_ok _

theorem write_map_cons (pair : Pair) (map : KeyMap) (rest : List UInt8) :
    write_map (pair :: map) ++ rest =
      write_var_bytes pair.1 ++ (write_var_bytes pair.2 ++ (write_map map ++ rest)) := by
  simp [write_map, write_pair]

theorem write_map_ne_nil (map : KeyMap) : write_map map ≠ [] := by
  simp [write_map]

theorem write_var_bytes_nil : write_var_bytes [] = [0x00] := rfl

theorem write_var_bytes_pos (bytes : List UInt8) : 0 < (write_var_bytes bytes).length := by
  unfold write_var_bytes write_compact_size
  (repeat' split) <;> simp

theorem length_lt_write_map (map : KeyMap) : map.length < (write_map map).length := by
  induction map with
  | nil => simp [write_map]
  | cons pair map ih =>
    have h := congrArg List.length (write_map_cons pair map [])
    have hpos := write_var_bytes_pos pair.1
    simp only [List.append_nil, List.length_append, List.length_cons] at h ⊢
    omega

variable {turns : ℕ}

theorem read_map_sound {map map' : KeyMap} (hd : (map.map Prod.fst).Nodup)
    (h : read_map pubkey_is_valid scope turns map bytes = .ok (map', rest)) :
    ∃ more, map' = map ++ more ∧ (∀ pair ∈ more, Fits pubkey_is_valid scope pair) ∧
      (map'.map Prod.fst).Nodup ∧ write_map more ++ rest = bytes := by
  induction turns generalizing map bytes with
  | zero => cases h
  | succ turns ih =>
    obtain ⟨left, _, hleft, h⟩ := bind_eq_ok.mp h
    cases hleft
    split at h
    · cases h
    obtain ⟨key, middle, hk, h⟩ := bind_eq_ok.mp h
    obtain ⟨hkl, hkw⟩ := lifted_var_bytes_inverts.write_read hk
    split at h
    · next hnil =>
      cases h
      subst hnil
      exact ⟨[], by simp, by simp, hd, by simpa [write_map, write_var_bytes_nil] using hkw⟩
    · next hne =>
      obtain ⟨pair, last, hp, hnext⟩ := bind_eq_ok.mp h
      obtain ⟨rfl, hfresh, hf, hw⟩ := read_pair_sound hkl hne hp
      have hd' : ((map ++ [pair]).map Prod.fst).Nodup := by
        simpa [List.nodup_append] using ⟨hd, fun a b hab he => hfresh (by
          rw [← he]
          exact List.mem_map_of_mem hab)⟩
      obtain ⟨more, rfl, hmore, hd'', hwm⟩ := ih hd' hnext
      refine ⟨pair :: more, by simp, List.forall_mem_cons.mpr ⟨hf, hmore⟩, hd'', ?_⟩
      rw [write_map_cons, hwm, hw, hkw]

theorem read_map_complete {map more : KeyMap} (hf : ∀ pair ∈ more, Fits pubkey_is_valid scope pair)
    (hd : ((map ++ more).map Prod.fst).Nodup) (ht : more.length < turns) :
    read_map pubkey_is_valid scope turns map (write_map more ++ rest) = .ok (map ++ more, rest) := by
  induction turns generalizing map more with
  | zero => omega
  | succ turns ih =>
    have hleft : ¬(scope = .Global ∧ (write_map more ++ rest).length = 0) := fun h =>
      write_map_ne_nil more (List.append_eq_nil_iff.mp (List.length_eq_zero_iff.mp h.2)).1
    rw [read_map, bind_ok (rfl : remaining _ = .ok (_, _)), if_neg hleft]
    cases more with
    | nil =>
      have hend : lifted read_var_bytes (write_map [] ++ rest) = .ok ([], rest) := by
        have h := lifted_var_bytes_inverts.read_write (a := []) rest (by simp)
        rwa [write_var_bytes_nil] at h
      rw [bind_ok hend, if_pos rfl, List.append_nil, pure_apply]
    | cons pair more =>
      rw [List.forall_mem_cons] at hf
      obtain ⟨t, kd, hkey, -, -⟩ := hf.1.passes
      have hne : pair.1 ≠ [] := by simp [hkey]
      have hfresh : pair.1 ∉ map.map Prod.fst := by
        rw [List.map_append, List.map_cons] at hd
        exact fun hm => (List.nodup_append.mp hd).2.2 _ hm _ (List.mem_cons_self ..) rfl
      rw [write_map_cons, bind_ok (lifted_var_bytes_inverts.read_write _ hf.1.key_short), if_neg hne,
        bind_ok (read_pair_complete hf.1 hfresh), ih hf.2 (by simpa using hd) (by simpa using ht)]
      simp

theorem read_map_refusing (map : KeyMap) (ht : bytes.length < turns) :
    Refusing (read_map pubkey_is_valid scope turns map bytes) := by
  induction turns generalizing map bytes with
  | zero => omega
  | succ turns ih =>
    refine Refusing.bind_read (refusing_ok _) fun left rest hleft => ?_
    cases hleft
    split
    · exact refusing_throw _ _
    refine (lifted_refusing _).bind_read fun key middle hk => ?_
    obtain ⟨-, hkw⟩ := lifted_var_bytes_inverts.write_read hk
    split
    · exact refusing_ok _
    · next hne =>
      refine (read_pair_refusing hne).bind_read fun pair last hp => ih _ ?_
      have hw := congrArg List.length (read_pair_sound (lifted_var_bytes_inverts.write_read hk).1 hne hp).2.2.2
      have hpos := write_var_bytes_pos key
      simp only [← hkw, List.length_append] at hw ht
      omega

end

section

variable {pubkey_is_valid : List UInt8 → Bool} {scope : Scope} {bytes rest : List UInt8}

def Checked (pubkey_is_valid : List UInt8 → Bool) (scope : Scope) (check : KeyMap → Except Halt Unit) (map : KeyMap) :
    Prop :=
  check map = .ok () ∧ Valid pubkey_is_valid scope map

variable {checks : List (KeyMap → Except Halt Unit)}

theorem read_maps_sound {maps : List KeyMap} (h : read_maps pubkey_is_valid scope checks bytes = .ok (maps, rest))
    (hl : maps.length = checks.length) :
    List.Forall₂ (Checked pubkey_is_valid scope) checks maps ∧ maps.flatMap write_map ++ rest = bytes := by
  induction checks generalizing bytes maps with
  | nil =>
    cases h
    simp
  | cons check checks ih =>
    obtain ⟨left, _, hleft, h₁⟩ := bind_eq_ok.mp h
    cases hleft
    split at h₁
    · cases h₁
      simp at hl
    obtain ⟨map, middle, hm, h₂⟩ := bind_eq_ok.mp h₁
    obtain ⟨_, _, hr, h₃⟩ := bind_eq_ok.mp h₂
    obtain ⟨hc, he⟩ := require_eq_ok.mp hr
    cases he
    obtain ⟨tail, last, ht, h₄⟩ := bind_eq_ok.mp h₃
    cases h₄
    obtain ⟨more, hmap, hf, hd, hw⟩ := read_map_sound (by simp) hm
    rw [List.nil_append] at hmap
    subst hmap
    obtain ⟨hchecked, hwt⟩ := ih ht (by simpa using hl)
    exact ⟨.cons ⟨hc, hf, hd⟩ hchecked, by rw [List.flatMap_cons, List.append_assoc, hwt, hw]⟩

theorem read_maps_complete {maps : List KeyMap} (h : List.Forall₂ (Checked pubkey_is_valid scope) checks maps) :
    read_maps pubkey_is_valid scope checks (maps.flatMap write_map ++ rest) = .ok (maps, rest) := by
  induction h with
  | nil => rfl
  | @cons check map checks maps h hs ih =>
    obtain ⟨hc, hf, hd⟩ := h
    have hleft : (write_map map ++ (maps.flatMap write_map ++ rest)).length ≠ 0 := fun h =>
      write_map_ne_nil map (List.append_eq_nil_iff.mp (List.length_eq_zero_iff.mp h)).1
    have hturns : map.length < (write_map map ++ (maps.flatMap write_map ++ rest)).length + 1 := by
      have := length_lt_write_map map
      rw [List.length_append]
      omega
    rw [List.flatMap_cons, List.append_assoc, read_maps, bind_ok (rfl : remaining _ = .ok (_, _)), if_neg hleft,
      bind_ok (read_map_complete hf (by simpa using hd) hturns), List.nil_append, bind_ok (require_ok hc), bind_ok ih]
    rfl

theorem read_maps_refusing (h : ∀ check ∈ checks, ∀ map, Refusing (check map)) :
    Refusing (read_maps pubkey_is_valid scope checks bytes) := by
  induction checks generalizing bytes with
  | nil => exact refusing_ok _
  | cons check checks ih =>
    rw [List.forall_mem_cons] at h
    refine Refusing.bind_read (refusing_ok _) fun left rest hleft => ?_
    cases hleft
    split
    · exact refusing_ok _
    refine (read_map_refusing [] (Nat.lt_succ_self _)).bind_read fun map rest _ => ?_
    refine (require_refusing (h.1 map)).bind_read fun _ rest _ => ?_
    exact (ih h.2).bind_read fun maps rest _ => refusing_ok _

theorem magic_inverts : Inverts (lifted (read_bytes 5)) id (fun magic => magic.length = 5) :=
  lifted_inverts (read_bytes_inverts 5)

theorem ok_or_refused_iff {c : Prop} [Decidable c] :
    (if c then .ok () else .error (.Refused e) : Except Halt Unit) = .ok () ↔ c := by
  split <;> simp_all

theorem ok_or_refused_refusing {c : Prop} [Decidable c] :
    Refusing (if c then .ok () else .error (.Refused e) : Except Halt Unit) := by
  split <;> simp

theorem counted_refusing (maps : List KeyMap) (count : ℕ) (e : PsbtError) : Refusing (counted maps count e) :=
  ok_or_refused_refusing

variable {tx : Transaction} {global : KeyMap}

theorem read_global_sound (h : read_global pubkey_is_valid bytes = .ok ((tx, global), rest)) :
    Valid pubkey_is_valid .Global global ∧
      (∃ tx_bytes, global.get 0x00 = some tx_bytes ∧ decode_no_witness tx_bytes = .ok tx) ∧
      PSBT_MAGIC ++ (write_map global ++ rest) = bytes := by
  obtain ⟨magic, after, hm, h₁⟩ := bind_eq_ok.mp h
  obtain ⟨_, _, hr, h₂⟩ := bind_eq_ok.mp h₁
  obtain ⟨hmagic, he⟩ := require_eq_ok.mp hr
  rw [ok_or_refused_iff] at hmagic
  cases he
  obtain ⟨left, _, hleft, h₃⟩ := bind_eq_ok.mp h₂
  cases hleft
  obtain ⟨map, middle, hg, h₄⟩ := bind_eq_ok.mp h₃
  obtain ⟨more, hmap, hf, hd, hw⟩ := read_map_sound (by simp) hg
  rw [List.nil_append] at hmap
  subst hmap
  cases hget : map.get 0x00 with
  | none =>
    simp only [hget] at h₄
    cases h₄
  | some tx_bytes =>
    simp only [hget] at h₄
    obtain ⟨tx', last, ht, h₅⟩ := bind_eq_ok.mp h₄
    cases h₅
    cases hdec : decode_no_witness tx_bytes with
    | error e =>
      rw [hdec] at ht
      cases ht
    | ok tx =>
      rw [hdec] at ht
      cases ht
      refine ⟨⟨hf, hd⟩, ⟨tx_bytes, hget, hdec⟩, ?_⟩
      rw [hw, ← hmagic]
      exact (magic_inverts.write_read hm).2

theorem read_global_complete {tx_bytes : List UInt8} (hg : Valid pubkey_is_valid .Global global)
    (hget : global.get 0x00 = some tx_bytes) (htx : decode_no_witness tx_bytes = .ok tx) :
    read_global pubkey_is_valid (PSBT_MAGIC ++ (write_map global ++ rest)) = .ok ((tx, global), rest) := by
  have hmagic : lifted (read_bytes 5) (PSBT_MAGIC ++ (write_map global ++ rest)) = .ok (PSBT_MAGIC, _) :=
    magic_inverts.read_write _ rfl
  have hturns : global.length < (write_map global ++ rest).length + 1 := by
    have := length_lt_write_map global
    rw [List.length_append]
    omega
  rw [read_global, bind_ok hmagic, bind_ok (require_ok (if_pos rfl)), bind_ok (rfl : remaining _ = .ok (_, _)),
    bind_ok (read_map_complete hg.fits (by simpa using hg.distinct) hturns), List.nil_append]
  simp only [hget]
  have hread : (fun bytes => (lift (decode_no_witness tx_bytes)).map fun tx => (tx, bytes) :
      ByteReader Halt Transaction) rest = .ok (tx, rest) := by
    rw [htx]
    rfl
  rw [bind_ok hread]
  rfl

theorem read_global_refusing : Refusing (read_global pubkey_is_valid bytes) := by
  refine (lifted_refusing _).bind_read fun magic rest _ => ?_
  refine (require_refusing ok_or_refused_refusing).bind_read fun _ rest _ => ?_
  refine Refusing.bind_read (refusing_ok _) fun left rest hleft => ?_
  cases hleft
  refine (read_map_refusing [] (Nat.lt_succ_self _)).bind_read fun global rest _ => ?_
  cases hget : global.get 0x00 with
  | none => simp
  | some tx_bytes =>
    refine Refusing.bind_read ?_ fun _ _ _ => refusing_ok _
    cases hdec : decode_no_witness tx_bytes with
    | error e => exact refusing_refused _
    | ok tx => exact refusing_ok _

variable [Platform]

theorem check_utxo_refusing (input : TxIn) (map : KeyMap) : Refusing (check_utxo input map) := by
  unfold check_utxo
  split
  · exact refusing_ok _
  · refine (refusing_lift _).bind fun tx => ?_
    split
    · simp
    · split <;> simp

structure Proper (pubkey_is_valid : List UInt8 → Bool) (p : Psbt) : Prop where
  global : Valid pubkey_is_valid .Global p.global
  unsigned_tx : ∃ tx_bytes, p.global.get 0x00 = some tx_bytes ∧ decode_no_witness tx_bytes = .ok p.tx
  inputs : List.Forall₂ (Checked pubkey_is_valid .Input) (p.tx.inputs.map check_utxo) p.inputs
  outputs : List.Forall₂ (Checked pubkey_is_valid .Output) (p.tx.outputs.map fun _ _ => .ok ()) p.outputs

def wire (p : Psbt) : List UInt8 :=
  PSBT_MAGIC ++ (write_map p.global ++ (p.inputs.flatMap write_map ++ p.outputs.flatMap write_map))

variable {p : Psbt}

theorem read_sound (h : read pubkey_is_valid bytes = .ok (p, rest)) :
    Proper pubkey_is_valid p ∧ wire p = bytes ∧ rest = [] := by
  obtain ⟨⟨tx, global⟩, middle, hg, h₁⟩ := bind_eq_ok.mp h
  obtain ⟨hglobal, htx, hw⟩ := read_global_sound hg
  obtain ⟨inputs, middle', hi, h₂⟩ := bind_eq_ok.mp h₁
  obtain ⟨_, _, hr, h₃⟩ := bind_eq_ok.mp h₂
  obtain ⟨hni, he⟩ := require_eq_ok.mp hr
  cases he
  rw [counted_eq_ok] at hni
  obtain ⟨hinputs, hwi⟩ := read_maps_sound hi (by simpa using hni)
  obtain ⟨outputs, last, ho, h₄⟩ := bind_eq_ok.mp h₃
  obtain ⟨_, _, hr', h₅⟩ := bind_eq_ok.mp h₄
  obtain ⟨hno, he⟩ := require_eq_ok.mp hr'
  cases he
  rw [counted_eq_ok] at hno
  obtain ⟨houtputs, hwo⟩ := read_maps_sound ho (by simpa using hno)
  obtain ⟨left, _, hleft, h₆⟩ := bind_eq_ok.mp h₅
  cases hleft
  obtain ⟨_, _, hr'', h₇⟩ := bind_eq_ok.mp h₆
  obtain ⟨hend, he⟩ := require_eq_ok.mp hr''
  cases he
  rw [ok_or_refused_iff, List.length_eq_zero_iff] at hend
  subst hend
  cases h₇
  refine ⟨⟨hglobal, htx, hinputs, houtputs⟩, ?_, rfl⟩
  rw [List.append_nil] at hwo
  rw [← hw, ← hwi, ← hwo]
  rfl

theorem read_complete (h : Proper pubkey_is_valid p) : read pubkey_is_valid (wire p) = .ok (p, []) := by
  obtain ⟨tx, global, inputs, outputs⟩ := p
  obtain ⟨hglobal, ⟨tx_bytes, hget, htx⟩, hinputs, houtputs⟩ := h
  have hni : inputs.length = tx.inputs.length := by simpa using hinputs.length_eq.symm
  have hno : outputs.length = tx.outputs.length := by simpa using houtputs.length_eq.symm
  have hwo := @read_maps_complete _ _ [] _ _ houtputs
  rw [List.append_nil] at hwo
  rw [wire, read, bind_ok (read_global_complete hglobal hget htx)]
  dsimp only
  rw [bind_ok (read_maps_complete hinputs), bind_ok (require_ok (counted_eq_ok.mpr hni)), bind_ok hwo,
    bind_ok (require_ok (counted_eq_ok.mpr hno)), bind_ok (rfl : remaining [] = .ok (0, [])),
    bind_ok (require_ok (if_pos List.length_nil))]
  rfl

theorem read_refusing : Refusing (read pubkey_is_valid bytes) := by
  refine read_global_refusing.bind_read fun p rest _ => ?_
  have hinputs : ∀ check ∈ p.1.inputs.map check_utxo, ∀ map, Refusing (check map) := by
    simpa using fun input _ map => check_utxo_refusing input map
  refine (read_maps_refusing hinputs).bind_read fun inputs rest _ => ?_
  refine (require_refusing (counted_refusing _ _ _)).bind_read fun _ rest _ => ?_
  refine (read_maps_refusing (by simp)).bind_read fun outputs rest _ => ?_
  refine (require_refusing (counted_refusing _ _ _)).bind_read fun _ rest _ => ?_
  refine Refusing.bind_read (refusing_ok _) fun left rest _ => ?_
  exact (require_refusing ok_or_refused_refusing).bind_read fun _ _ _ => refusing_ok _

theorem decode_eq_ok : decode pubkey_is_valid bytes = .ok p ↔ Proper pubkey_is_valid p ∧
    wire p = bytes := by
  constructor
  · intro h
    cases hr : read pubkey_is_valid bytes with
    | error e =>
      rw [decode, hr] at h
      cases h
    | ok r =>
      rw [decode, hr] at h
      cases h
      obtain ⟨hp, hw, -⟩ := read_sound hr
      exact ⟨hp, hw⟩
  · rintro ⟨hp, rfl⟩
    rw [decode, read_complete hp]
    rfl

end

section

variable {pubkey_is_valid : List UInt8 → Bool} {scope : Scope} {map map' : KeyMap}

theorem sort_key_injective : Function.Injective (sort_key scope) := by
  intro a b h
  have hl : a.map UInt8.toNat = b.map UInt8.toNat := (Prod.mk.inj (toLex.injective h)).2
  exact List.map_injective_iff.mpr (fun _ _ => UInt8.toNat_inj.mp) hl

theorem sorted_perm (scope : Scope) (map : KeyMap) : (sorted scope map).Perm map := List.mergeSort_perm _ _

theorem sorted_pairwise (scope : Scope) (map : KeyMap) :
    (sorted scope map).Pairwise fun a b => sort_key scope a.1 ≤ sort_key scope b.1 := by
  have h : (sorted scope map).Pairwise fun a b => decide (sort_key scope a.1 ≤ sort_key scope b.1) = true :=
    List.pairwise_mergeSort
      (fun a b c hab hbc => by
        rw [decide_eq_true_eq] at hab hbc ⊢
        exact hab.trans hbc)
      (fun a b => by simpa using le_total _ _) map
  exact h.imp fun h => of_decide_eq_true h

def SameMap (map map' : KeyMap) : Prop :=
  (map.map Prod.fst).Nodup ∧ (map'.map Prod.fst).Nodup ∧ ∀ pair, pair ∈ map' ↔ pair ∈ map

theorem SameMap.perm (h : SameMap map map') : map.Perm map' :=
  (List.perm_ext_iff_of_nodup (.of_map _ h.1) (.of_map _ h.2.1)).mpr fun pair => (h.2.2 pair).symm

theorem same_map_of_perm (hd : (map.map Prod.fst).Nodup) (h : map.Perm map') : SameMap map map' :=
  ⟨hd, (h.map Prod.fst).nodup_iff.mp hd, fun _ => h.mem_iff.symm⟩

theorem SameMap.sorted_eq (h : SameMap map map') : sorted scope map = sorted scope map' := by
  have hp := ((sorted_perm scope map).trans h.perm).trans (sorted_perm scope map').symm
  refine hp.eq_of_pairwise (fun a b ha hb hab hba => ?_) (sorted_pairwise scope map) (sorted_pairwise scope map')
  have hkey : a.1 = b.1 := sort_key_injective (le_antisymm hab hba)
  have ha' : a ∈ map := (sorted_perm scope map).mem_iff.mp ha
  have hb' : b ∈ map := (h.2.2 b).mp ((sorted_perm scope map').mem_iff.mp hb)
  exact List.inj_on_of_nodup_map h.1 ha' hb' hkey

theorem Valid.same (hv : Valid pubkey_is_valid scope map) (h : SameMap map map') :
    Valid pubkey_is_valid scope map' where
  fits pair hp := hv.fits pair ((h.2.2 pair).mp hp)
  distinct := h.2.1

theorem check_key_zero {kd : List UInt8} (hs : scope ≠ .Output)
    (h : check_key pubkey_is_valid scope 0x00 kd = .ok ()) :
    kd = [] := by
  cases scope with
  | Output => exact absurd rfl hs
  | Global | Input =>
    change sized 0 kd _ = .ok () at h
    unfold sized at h
    split at h
    · next hl => exact List.length_eq_zero_iff.mp hl
    · cases h

section

variable (hv : Valid pubkey_is_valid scope map)
include hv

/-- `get` ignores what follows the type, but a key of type zero has nothing there. -/
theorem Valid.get_eq_some (hs : scope ≠ .Output) {v : List UInt8} :
    map.get 0x00 = some v ↔ ([0x00], v) ∈ map := by
  have hbare : ∀ pair ∈ map, pair.1.head? = some 0x00 → pair.1 = [0x00] := by
    intro pair hp hh
    obtain ⟨t, kd, hk, hc, -⟩ := (hv.fits pair hp).passes
    rw [hk, List.head?_cons, Option.some.injEq] at hh
    subst hh
    rw [hk, check_key_zero hs hc]
  constructor
  · intro h
    obtain ⟨pair, hfind, rfl⟩ := Option.map_eq_some_iff.mp h
    have hm := List.mem_of_find?_eq_some hfind
    have hk := hbare pair hm (by simpa using List.find?_some hfind)
    rwa [← hk]
  · intro h
    cases hfind : map.find? fun pair => pair.1.head? = some 0x00 with
    | none => simpa using List.find?_eq_none.mp hfind _ h
    | some pair =>
      have hm := List.mem_of_find?_eq_some hfind
      have hk := hbare pair hm (by simpa using List.find?_some hfind)
      have hpair : pair = ([0x00], v) := List.inj_on_of_nodup_map hv.distinct hm h hk
      rw [KeyMap.get, hfind, hpair]
      rfl

theorem Valid.get_same (hs : scope ≠ .Output) (h : SameMap map map') :
    map'.get 0x00 = map.get 0x00 := by
  ext v
  rw [(hv.same h).get_eq_some hs, hv.get_eq_some hs, h.2.2]

theorem Valid.sorted_same : SameMap map (sorted scope map) :=
  same_map_of_perm hv.distinct (sorted_perm scope map).symm

end

theorem Checked.same {check : KeyMap → Except Halt Unit} (hc : Checked pubkey_is_valid scope check map)
    (h : SameMap map map') (he : check map' = check map) : Checked pubkey_is_valid scope check map' :=
  ⟨he.trans hc.1, hc.2.same h⟩

end

structure SamePairs (p q : Psbt) : Prop where
  global : SameMap p.global q.global
  inputs : List.Forall₂ SameMap p.inputs q.inputs
  outputs : List.Forall₂ SameMap p.outputs q.outputs

def arranged (p : Psbt) : Psbt where
  tx := p.tx
  global := sorted .Global p.global
  inputs := p.inputs.map (sorted .Input)
  outputs := p.outputs.map (sorted .Output)

theorem encode_eq_wire (p : Psbt) : encode p = wire (arranged p) := by
  simp only [encode, wire, arranged, List.flatMap_map, List.append_assoc]
  rfl

theorem sorted_maps_eq {scope : Scope} {maps maps' : List KeyMap} (h : List.Forall₂ SameMap maps maps') :
    maps.map (sorted scope) = maps'.map (sorted scope) := by
  induction h with
  | nil => rfl
  | cons h _ ih => rw [List.map_cons, List.map_cons, h.sorted_eq, ih]

theorem encode_same {p q : Psbt} (h : SamePairs p q) : encode p = encode q := by
  simp only [encode_eq_wire, wire, arranged, h.global.sorted_eq, sorted_maps_eq h.inputs, sorted_maps_eq h.outputs]

section

variable {pubkey_is_valid : List UInt8 → Bool} {p : Psbt}

theorem checked_sorted {α : Type} {scope : Scope} {checks : List α} {check : α → KeyMap → Except Halt Unit}
    {maps : List KeyMap} (h : List.Forall₂ (Checked pubkey_is_valid scope) (checks.map check) maps)
    (he : ∀ a map map', Valid pubkey_is_valid scope map → SameMap map map' → check a map' = check a map) :
    List.Forall₂ SameMap maps (maps.map (sorted scope)) ∧
      List.Forall₂ (Checked pubkey_is_valid scope) (checks.map check) (maps.map (sorted scope)) := by
  rw [List.forall₂_map_left_iff] at h ⊢
  induction h with
  | nil => simp
  | cons h _ ih =>
    have hs := h.2.sorted_same
    exact ⟨.cons hs ih.1, .cons (h.same hs (he _ _ _ h.2 hs)) ih.2⟩

variable [Platform]

theorem check_utxo_same {map map' : KeyMap} (hv : Valid pubkey_is_valid .Input map) (h : SameMap map map')
    (input : TxIn) :
    check_utxo input map' = check_utxo input map := by
  unfold check_utxo
  rw [hv.get_same (by decide) h]

theorem Proper.arranged_same (h : Proper pubkey_is_valid p) : SamePairs p (arranged p) where
  global := h.global.sorted_same
  inputs := (checked_sorted h.inputs fun input _ _ hv hs => check_utxo_same hv hs input).1
  outputs := (checked_sorted h.outputs fun _ _ _ _ _ => rfl).1

theorem Proper.arranged (h : Proper pubkey_is_valid p) : Proper pubkey_is_valid (arranged p) where
  global := h.global.same h.global.sorted_same
  unsigned_tx := by
    obtain ⟨tx_bytes, hget, htx⟩ := h.unsigned_tx
    exact ⟨tx_bytes, (h.global.get_same (by decide) h.global.sorted_same).trans hget, htx⟩
  inputs := (checked_sorted h.inputs fun input _ _ hv hs => check_utxo_same hv hs input).2
  outputs := (checked_sorted h.outputs fun _ _ _ _ _ => rfl).2

theorem encode_decode (bytes : List UInt8) :
    (∀ p, decode pubkey_is_valid bytes = .ok p →
      ∃ p', decode pubkey_is_valid (encode p) = .ok p' ∧ p'.tx = p.tx ∧ SamePairs p p' ∧ encode p' = encode p) ∧
    (∀ q q', SamePairs q q' → encode q = encode q') ∧
    decode pubkey_is_valid bytes ≠ .error .IndexOutOfRange ∧ decode pubkey_is_valid bytes ≠ .error .Spins := by
  have hrefused : Refusing (decode pubkey_is_valid bytes) := by
    unfold decode
    have h : Refusing (read pubkey_is_valid bytes) := read_refusing
    cases hr : read pubkey_is_valid bytes with
    | ok r => exact refusing_ok _
    | error e => exact fun halt he => h halt (hr.trans (by cases he; rfl))
  refine ⟨fun p hp => ?_, fun q q' h => encode_same h, fun h => ?_, fun h => ?_⟩
  · obtain ⟨hproper, -⟩ := decode_eq_ok.mp hp
    have hsame := hproper.arranged_same
    exact ⟨arranged p, decode_eq_ok.mpr ⟨hproper.arranged, (encode_eq_wire p).symm⟩, rfl, hsame,
      (encode_same hsame).symm⟩
  · obtain ⟨e, he⟩ := hrefused _ h
    cases he
  · obtain ⟨e, he⟩ := hrefused _ h
    cases he

end

section Sample

attribute [local instance] Platform.sample

def sample_tx : Transaction := ⟨2, [⟨⟨0, 0⟩, [], 0, []⟩], [⟨0, []⟩], 0⟩

def sample_psbt : Psbt := ⟨sample_tx, [([0x50], [7]), ([0x00], sample_tx.write_without_witness)], [[]], [[]]⟩

theorem encode_decode_sample :
    ∃ p', decode (fun _ => true) (encode sample_psbt) = .ok p' ∧ p'.tx = sample_psbt.tx ∧ SamePairs sample_psbt p' ∧
      encode p' = encode sample_psbt :=
  (encode_decode (wire sample_psbt)).1 sample_psbt (by decide +kernel)

end Sample

end AvilaNode.Psbt
