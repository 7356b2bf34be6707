import AvilaNode.AddressDecode

/-! Which strings are addresses of which scripts, and where two readings of one string meet. -/

namespace AvilaNode.Address

open Interpreter Utf8 Radix

section Scripts

variable {program hash : List UInt8} {version : ℕ}

theorem push_slice_program (hge : 2 ≤ program.length) (hle : program.length ≤ 40) :
    push_slice program = UInt8.ofNat program.length :: program := by
  have hmax : MAX_DIRECT_PUSH.toNat = 75 := by decide
  rw [push_slice, if_neg (by omega), if_pos (by omega)]
  rfl

theorem witness_script_eq (h : ValidProgram version program) : witness_script version program =
      (if version = 0 then OP_0 else OP_1 + UInt8.ofNat version - 1) :: UInt8.ofNat program.length :: program := by
  rw [witness_script, push_slice_program h.length_ge h.length_le]

def version_opcode (version : ℕ) : UInt8 := if version = 0 then OP_0 else OP_1 + UInt8.ofNat version - 1

def opcode_version (op : UInt8) : Option UInt8 :=
  if op = OP_0 then some 0 else if OP_1 ≤ op ∧ op ≤ OP_16 then some (op - (OP_1 - 1)) else none

theorem opcode_version_eq (h : version ≤ 16) :
    opcode_version (version_opcode version) = some (UInt8.ofNat version) := by
  interval_cases version <;> decide

theorem opcode_of_version {op version : UInt8} (h : opcode_version op = some version) :
    version.toNat ≤ 16 ∧ op = version_opcode version.toNat := by
  rw [opcode_version] at h
  split_ifs at h with h0 h1
  · obtain rfl := Option.some.inj h
    exact ⟨by decide, h0⟩
  have hge := UInt8.le_iff_toNat_le.mp h1.1
  have hle := UInt8.le_iff_toNat_le.mp h1.2
  rw [show OP_1.toNat = 0x51 from rfl] at hge
  rw [show OP_16.toNat = 0x60 from rfl] at hle
  have hop : op = UInt8.ofNat op.toNat := (UInt8.ofNat_toNat).symm
  generalize op.toNat = n at hge hle hop
  subst hop
  obtain rfl := Option.some.inj h
  interval_cases n <;> decide

variable (script : Script)

theorem witness_program_iff (version : UInt8) (program : List UInt8) :
    witness_program script = some (version, program) ↔ version.toNat ≤ 16 ∧ 2 ≤ program.length ∧ program.length ≤ 40 ∧
      script = version_opcode version.toNat :: UInt8.ofNat program.length :: program := by
  rw [witness_program]
  constructor
  · intro h
    by_cases hlen : script.length < 4 ∨ 42 < script.length
    · rw [if_pos hlen] at h
      cases h
    rw [if_neg hlen] at h
    cases script with
    | nil => simp at hlen
    | cons op script =>
      cases script with
      | nil => simp at hlen
      | cons len rest =>
        rw [List.length_cons, List.length_cons] at hlen
        have hversion : opcode_version op = opcode_version op := rfl
        conv_rhs at hversion => rw [opcode_version]
        simp only [List.getD_cons_zero, List.getD_cons_succ, List.drop_succ_cons, List.drop_zero, List.length_cons,
          ← hversion] at h
        cases hop : opcode_version op with
        | none => simp [hop] at h
        | some found =>
          rw [hop] at h
          split_ifs at h with hsize
          obtain ⟨rfl, rfl⟩ := Prod.mk.inj (Option.some.inj h)
          obtain ⟨hle, rfl⟩ := opcode_of_version hop
          have hcount : len = UInt8.ofNat rest.length := by
            apply UInt8.toNat_inj.mp
            rw [ofNat_toNat (by omega)]
            omega
          exact ⟨hle, by omega, by omega, by rw [hcount]⟩
  · rintro ⟨hle, hge, hmax, rfl⟩
    have hop := opcode_version_eq hle
    rw [opcode_version, UInt8.ofNat_toNat] at hop
    rw [if_neg (by simp only [List.length_cons]; omega)]
    simp only [List.getD_cons_zero, List.getD_cons_succ, List.drop_succ_cons, List.drop_zero, List.length_cons, hop,
      ofNat_toNat (show program.length < 256 by omega), ne_eq, not_true_eq_false, if_false]

theorem classify_witness (h : ValidProgram version program) :
    classify (witness_script version program) = .Witness version program ∨
      classify (witness_script version program) = .Anchor ∧ version = 1 ∧ program = [0x4e, 0x73] := by
  have hv : (UInt8.ofNat version).toNat = version := ofNat_toNat (lt_of_le_of_lt h.version_le (by norm_num))
  have hshape := witness_script_eq h
  have hwitness : witness_program (witness_script version program) = some (UInt8.ofNat version, program) := by
    rw [witness_program_iff, hv]
    exact ⟨h.version_le, h.length_ge, h.length_le, hshape⟩
  rw [classify]
  by_cases hanchor : witness_script version program = [0x51, 0x02, 0x4e, 0x73]
  · rw [if_pos hanchor]
    have hsame : witness_program [0x51, 0x02, 0x4e, 0x73] = some (1, [0x4e, 0x73]) := by decide
    rw [← hanchor, hwitness] at hsame
    obtain ⟨hversion, hprogram⟩ := Prod.mk.inj (Option.some.inj hsame)
    exact Or.inr ⟨rfl, by rw [← hv, hversion]; rfl, hprogram⟩
  · have hfilter : (some (UInt8.ofNat version, program)).filter
        (fun w => w.1 ≠ 0 ∨ w.2.length = 20 ∨ w.2.length = 32) = some (UInt8.ofNat version, program) := by
      rw [Option.filter_some, if_pos]
      rw [decide_eq_true_iff]
      by_cases h0 : version = 0
      · exact Or.inr (h.sizes h0)
      · refine Or.inl fun hzero => h0 ?_
        rw [← hv]
        exact congrArg UInt8.toNat hzero
    rw [if_neg hanchor, hwitness, hfilter]
    exact Or.inl (congrArg (ScriptType.Witness · program) hv)

theorem script_hash_of {script : Script} (h : is_p2sh script = true) :
    ∃ hash, hash.length = 20 ∧ script = script_hash_script hash ∧ (script.drop 2).take 20 = hash := by
  simp only [is_p2sh, Bool.and_eq_true, beq_iff_eq] at h
  obtain ⟨⟨⟨hlen, h0⟩, h1⟩, hlast⟩ := h
  cases script with
  | nil => cases h0
  | cons a script =>
    cases script with
    | nil => cases h1
    | cons b rest =>
      rw [List.getElem?_cons_zero, Option.some.injEq] at h0
      rw [List.getElem?_cons_succ, List.getElem?_cons_zero, Option.some.injEq] at h1
      rw [List.length_cons, List.length_cons] at hlen
      have hdrop : rest.drop 20 = [0x87] := by
        rw [List.getElem?_cons_succ, List.getElem?_cons_succ, ← Nat.add_zero 20, ← List.getElem?_drop] at hlast
        have hone : (rest.drop 20).length = 1 := by
          rw [List.length_drop]
          omega
        obtain ⟨c, hc⟩ := List.length_eq_one_iff.mp hone
        rw [hc, List.getElem?_cons_zero, Option.some.injEq] at hlast
        rw [hc, hlast]
      refine ⟨rest.take 20, by rw [List.length_take]; omega, ?_, rfl⟩
      rw [script_hash_script, h0, h1, List.append_assoc, ← hdrop, List.take_append_drop]
      rfl

theorem script_hash_is (h : hash.length = 20) : is_p2sh (script_hash_script hash) = true := by
  have hlast : (script_hash_script hash)[22]? = some 0x87 := by
    rw [script_hash_script, List.getElem?_append_right (by simp [h])]
    simp [h]
  simp only [is_p2sh, Bool.and_eq_true, beq_iff_eq]
  exact ⟨⟨⟨by simp [script_hash_script, h], rfl⟩, rfl⟩, hlast⟩

theorem hash_not_witness (op : UInt8) (rest : Script) (h : op = 0x76 ∨ op = 0xa9) :
    op :: rest ≠ [0x51, 0x02, 0x4e, 0x73] ∧ witness_program (op :: rest) = none := by
  refine ⟨?_, ?_⟩
  · intro heq
    obtain ⟨rfl, -⟩ := List.cons.inj heq
    rcases h with h | h <;> cases h
  · cases hprogram : witness_program (op :: rest) with
    | none => rfl
    | some found =>
      obtain ⟨version, program⟩ := found
      obtain ⟨hle, -, -, hscript⟩ := (witness_program_iff _ _ _).mp hprogram
      have hop := opcode_version_eq hle
      rw [← (List.cons.inj hscript).1] at hop
      rcases h with rfl | rfl <;> cases hop

theorem classify_pubkey_hash (h : hash.length = 20) : classify (pubkey_hash_script hash) = .PubKeyHash hash := by
  obtain ⟨hanchor, hprogram⟩ := hash_not_witness 0x76 (0xa9 :: 0x14 :: (hash ++ [0x88, 0xac])) (Or.inl rfl)
  have hscript : pubkey_hash_script hash = 0x76 :: 0xa9 :: 0x14 :: (hash ++ [0x88, 0xac]) := rfl
  have htail : (pubkey_hash_script hash).drop 23 = [0x88, 0xac] := by
    rw [pubkey_hash_script, List.drop_left' (by simp [h])]
  have hhash : ((pubkey_hash_script hash).drop 3).take 20 = hash := by
    rw [hscript]
    exact List.take_left' h
  rw [classify, if_neg (by rw [hscript]; exact hanchor), hscript, hprogram, ← hscript, Option.filter_none]
  rw [if_pos ⟨by simp [pubkey_hash_script, h], rfl, htail⟩, hhash]

theorem classify_script_hash (h : hash.length = 20) : classify (script_hash_script hash) = .ScriptHash hash := by
  obtain ⟨hanchor, hprogram⟩ := hash_not_witness 0xa9 (0x14 :: (hash ++ [0x87])) (Or.inr rfl)
  have hscript : script_hash_script hash = 0xa9 :: 0x14 :: (hash ++ [0x87]) := rfl
  have hhash : ((script_hash_script hash).drop 2).take 20 = hash := by
    rw [hscript]
    exact List.take_left' h
  have hlen : (script_hash_script hash).length = 23 := by simp [script_hash_script, h]
  rw [classify, if_neg (by rw [hscript]; exact hanchor), hscript, hprogram, ← hscript, Option.filter_none]
  rw [if_neg (by rw [hlen]; simp), if_pos (script_hash_is h), hhash]

theorem classify_cases :
    (∃ hash, hash.length = 20 ∧ script = pubkey_hash_script hash ∧ classify script = .PubKeyHash hash) ∨
    (∃ hash, hash.length = 20 ∧ script = script_hash_script hash ∧ classify script = .ScriptHash hash) ∨
    (∃ version program, ValidProgram version program ∧ script = witness_script version program ∧
      (classify script = .Witness version program ∨ classify script = .Anchor ∧ version = 1 ∧
        program = [0x4e, 0x73])) ∨
    classify script = .Other := by
  by_cases hanchor : script = [0x51, 0x02, 0x4e, 0x73]
  · refine Or.inr (Or.inr (Or.inl ⟨1, [0x4e, 0x73], ⟨by norm_num, by decide, by decide, by simp⟩, ?_, Or.inr ?_⟩))
    · rw [hanchor]
      decide
    · exact ⟨by rw [hanchor]; rfl, rfl, rfl⟩
  cases hfilter : (witness_program script).filter fun w => w.1 ≠ 0 ∨ w.2.length = 20 ∨ w.2.length = 32 with
  | some found =>
    obtain ⟨version, program⟩ := found
    obtain ⟨hprogram, hsizes⟩ := Option.filter_eq_some_iff.mp hfilter
    obtain ⟨hle, hge, hmax, hscript⟩ := (witness_program_iff _ _ _).mp hprogram
    have hvalid : ValidProgram version.toNat program := by
      refine ⟨hle, hge, hmax, fun h0 => ?_⟩
      rw [decide_eq_true_iff] at hsizes
      rcases hsizes with hne | hsize
      · exact absurd (UInt8.toNat_inj.mp h0) hne
      · exact hsize
    have hsame : script = witness_script version.toNat program := by
      rw [witness_script_eq hvalid, hscript]
      rfl
    refine Or.inr (Or.inr (Or.inl ⟨version.toNat, program, hvalid, hsame, ?_⟩))
    rw [hsame]
    exact classify_witness hvalid
  | none =>
    have hclass : classify script = if script.length = 25 ∧ script.take 3 = [0x76, 0xa9, 0x14] ∧
        script.drop 23 = [0x88, 0xac] then .PubKeyHash ((script.drop 3).take 20)
        else if is_p2sh script then .ScriptHash ((script.drop 2).take 20) else .Other := by
      rw [classify, if_neg hanchor, hfilter]
    rw [hclass]
    by_cases hkey : script.length = 25 ∧ script.take 3 = [0x76, 0xa9, 0x14] ∧ script.drop 23 = [0x88, 0xac]
    · refine Or.inl ⟨(script.drop 3).take 20, by simp [hkey.1], ?_, by rw [if_pos hkey]⟩
      have hrest : (script.drop 3).take 20 ++ [0x88, 0xac] = script.drop 3 := by
        rw [← hkey.2.2, show script.drop 23 = (script.drop 3).drop 20 by rw [List.drop_drop], List.take_append_drop]
      rw [pubkey_hash_script, List.append_assoc, hrest, ← hkey.2.1, List.take_append_drop]
    rw [if_neg hkey]
    by_cases hhash : is_p2sh script = true
    · obtain ⟨hash, hlen, hscript, hsame⟩ := script_hash_of hhash
      exact Or.inr (Or.inl ⟨hash, hlen, hscript, by rw [if_pos hhash, hsame]⟩)
    · rw [if_neg hhash]
      exact Or.inr (Or.inr (Or.inr rfl))

end Scripts

variable {payload : List UInt8}

section FirstSymbol

theorem first_digit {digits : List ℕ} (h : Canonical 58 digits) {lo hi k : ℕ} (hlo : 0 < lo) (hhi : hi ≤ 58)
    (hge : lo * 58 ^ k ≤ number 58 digits) (hlt : number 58 digits < hi * 58 ^ k) :
    ∃ d rest, digits = d :: rest ∧ lo ≤ d ∧ d < hi := by
  cases digits with
  | nil =>
    have hpos : 0 < lo * 58 ^ k := by positivity
    rw [number_nil] at hge
    omega
  | cons d rest =>
    have hrest := number_lt fun e he => h.small e (List.mem_cons_of_mem _ he)
    have hall := number_lt h.small
    rw [List.length_cons] at hall
    have hlen : rest.length = k := by
      apply le_antisymm
      · have hpow : 58 ^ rest.length < 58 ^ (k + 1) := by
          calc 58 ^ rest.length ≤ number 58 (d :: rest) := h.pow_le
            _ < hi * 58 ^ k := hlt
            _ ≤ 58 ^ (k + 1) := by rw [pow_succ']; exact Nat.mul_le_mul_right _ hhi
        exact Nat.lt_succ_iff.mp ((Nat.pow_lt_pow_iff_right (by norm_num)).mp hpow)
      · have hpow : 58 ^ k < 58 ^ (rest.length + 1) := by
          calc 58 ^ k ≤ lo * 58 ^ k := Nat.le_mul_of_pos_left _ hlo
            _ ≤ number 58 (d :: rest) := hge
            _ < _ := hall
        exact Nat.lt_succ_iff.mp ((Nat.pow_lt_pow_iff_right (by norm_num)).mp hpow)
    rw [number_cons, hlen] at hge hlt
    rw [hlen] at hrest
    refine ⟨d, rest, rfl, ?_, ?_⟩
    · have hlt' : lo * 58 ^ k < (d + 1) * 58 ^ k := by
        rw [Nat.add_mul, Nat.one_mul]
        omega
      exact Nat.lt_succ_iff.mp (Nat.lt_of_mul_lt_mul_right hlt')
    · exact Nat.lt_of_mul_lt_mul_right (lt_of_le_of_lt (Nat.le_add_right _ _) hlt)

variable [Platform]

theorem base58check_zero (payload : List UInt8) : ∃ rest, base58check 0 payload = 0x31 :: rest := by
  rw [base58check, base58_encode_raw, List.cons_append, List.takeWhile_cons_of_pos rfl, List.length_cons,
    List.replicate_succ]
  exact ⟨_, rfl⟩

theorem base58check_first {version : UInt8} (hv : version ≠ 0) (hlen : payload.length = 20) (lo hi k : ℕ)
    (hlo : 0 < lo) (hhi : hi ≤ 58) (hge : lo * 58 ^ k ≤ version.toNat * 256 ^ 24)
    (hlt : (version.toNat + 1) * 256 ^ 24 ≤ hi * 58 ^ k) :
    ∃ d rest, base58check version payload = symbol58 d :: rest ∧ lo ≤ d ∧ d < hi := by
  have hdata : (payload ++ checksum (version :: payload)).length = 24 := by
    rw [List.length_append, hlen, checksum_length]
  have hcanonical : CanonicalBytes (version :: (payload ++ checksum (version :: payload))) :=
    Canonical.cons version.toNat_lt (fun h => hv (UInt8.toNat_inj.mp h)) (byte_small _)
  obtain ⟨digits, hdigits, hnumber⟩ := exists_digits (version :: (payload ++ checksum (version :: payload)))
  have hrest := byte_number_lt (payload ++ checksum (version :: payload))
  have hencode := base58_encode_raw_eq 0 hcanonical hdigits hnumber
  rw [byte_number_cons, hdata] at hnumber
  rw [hdata] at hrest
  have hbelow : number 58 digits < hi * 58 ^ k := by
    calc number 58 digits < version.toNat * 256 ^ 24 + 256 ^ 24 := by omega
      _ = (version.toNat + 1) * 256 ^ 24 := by ring
      _ ≤ _ := hlt
  obtain ⟨d, rest, rfl, hd⟩ := first_digit hdigits hlo hhi (by omega) hbelow
  exact ⟨d, rest.map symbol58, hencode, hd⟩

theorem not_has_hrp (net other : Network) (hlen : payload.length = 20) {version : UInt8}
    (h : version = AddressParams.base58_pubkey_prefix (network_params net) ∨
      version = AddressParams.base58_script_prefix (network_params net)) :
    has_hrp (base58check version payload) (network_params other) = false := by
  have hversions : version = 0 ∨ version = 5 ∨ version = 0x6f ∨ version = 0xc4 := by
    cases net <;> rcases h with rfl | rfl <;> decide
  have hfirst : ∃ c rest, base58check version payload = c :: rest ∧ lower_byte c ≠ 0x62 ∧ lower_byte c ≠ 0x74 := by
    rcases hversions with rfl | rfl | rfl | rfl
    · obtain ⟨rest, hrest⟩ := base58check_zero payload
      exact ⟨0x31, rest, hrest, by decide, by decide⟩
    · obtain ⟨d, rest, hrest, hge, hlt⟩ := base58check_first (show (5 : UInt8) ≠ 0 by decide) hlen 2 3 33
        (by norm_num) (by norm_num) (by decide) (by decide)
      refine ⟨_, rest, hrest, ?_⟩
      interval_cases d
      decide
    · obtain ⟨d, rest, hrest, hge, hlt⟩ := base58check_first (show (0x6f : UInt8) ≠ 0 by decide) hlen 44 46 33
        (by norm_num) (by norm_num) (by decide) (by decide)
      refine ⟨_, rest, hrest, ?_⟩
      interval_cases d <;> decide
    · obtain ⟨d, rest, hrest, hge, hlt⟩ := base58check_first (show (0xc4 : UInt8) ≠ 0 by decide) hlen 1 2 34
        (by norm_num) (by norm_num) (by decide) (by decide)
      refine ⟨_, rest, hrest, ?_⟩
      interval_cases d
      decide
  obtain ⟨c, rest, hc, hb, ht⟩ := hfirst
  rw [hc, has_hrp, decide_eq_false_iff_not]
  rintro ⟨-, hsame⟩
  cases other
  · exact hb (List.cons.inj hsame).1
  · exact ht (List.cons.inj hsame).1
  · exact ht (List.cons.inj hsame).1
  · exact hb (List.cons.inj hsame).1

end FirstSymbol

inductive HashAddress [Platform] (params : AddressParams) : List UInt8 → Script → Prop where
  | pubkey (hash : List UInt8) (h : hash.length = 20) :
    HashAddress params (base58check params.base58_pubkey_prefix hash) (pubkey_hash_script hash)
  | script (hash : List UInt8) (h : hash.length = 20) :
    HashAddress params (base58check params.base58_script_prefix hash) (script_hash_script hash)

def Base58Hash [Platform] (s : List UInt8) : Prop := ∃ version hash, hash.length = 20 ∧ s = base58check version hash

def WitnessScript (params : AddressParams) (s : List UInt8) (script : Script) : Prop :=
  ∃ version program, WitnessAddress s params.bech32_hrp version program ∧ script = witness_script version program

def Clash [Platform] (params : AddressParams) (s : List UInt8) : Prop :=
    Base58Hash s ∧ ∃ script, WitnessScript params s script

theorem network_hrp (net : Network) : (network_params net).bech32_hrp ≠ [] ∧
    (network_params net).bech32_hrp.length ≤ 4 ∧
    ∀ c ∈ (network_params net).bech32_hrp, 32 < c ∧ c < 127 ∧ lower_byte c = c := by
  cases net <;> exact ⟨by decide, by decide, forall_of_all (by decide)⟩

theorem prefixes_differ (net : Network) :
    AddressParams.base58_pubkey_prefix (network_params net) ≠ AddressParams.base58_script_prefix
      (network_params net) := by
  cases net <;> decide

theorem lower_hrp (net : Network) :
    to_ascii_lowercase (network_params net).bech32_hrp = (network_params net).bech32_hrp := by
  rw [to_ascii_lowercase]
  conv_rhs => rw [← List.map_id (network_params net).bech32_hrp]
  exact List.map_congr_left fun c hc => ((network_hrp net).2.2 c hc).2.2

theorem witness_has_hrp {net : Network} {s : List UInt8} {script : Script}
    (h : WitnessScript (network_params net) s script) : has_hrp s (network_params net) = true := by
  obtain ⟨version, program, h, -⟩ := h
  have haddress := h.address
  rw [witness_address_eq] at haddress
  have hlen : (network_params net).bech32_hrp.length ≤ s.length := by
    have hcount := congrArg List.length haddress
    rw [lower_length, List.length_append] at hcount
    omega
  have htake : to_ascii_lowercase (s.take (network_params net).bech32_hrp.length) =
      (network_params net).bech32_hrp := by
    rw [to_ascii_lowercase, List.map_take]
    exact (congrArg (List.take _) haddress).trans List.take_left
  rw [has_hrp, decide_eq_true_iff]
  exact ⟨hlen, by rw [htake, lower_hrp]⟩

section

variable [Platform]

variable {s program : List UInt8} {script : Script} {net : Network} {version : ℕ}

variable {params : AddressParams}

theorem HashAddress.base58 (h : HashAddress params s script) : Base58Hash s := by
  cases h with
  | pubkey hash h => exact ⟨_, hash, h, rfl⟩
  | script hash h => exact ⟨_, hash, h, rfl⟩

theorem hash_not_has_hrp (h : HashAddress (network_params net) s script) : has_hrp s (network_params net) =
    false := by
  cases h with
  | pubkey hash h => exact not_has_hrp net net h (Or.inl rfl)
  | script hash h => exact not_has_hrp net net h (Or.inr rfl)

theorem hash_address_iff {version : UInt8} (h : base58check_decode s 21 = some (version, payload))
    (params : AddressParams) (script : Script) :
    HashAddress params s script ↔ payload.length = 20 ∧
      (version = params.base58_pubkey_prefix ∧ script = pubkey_hash_script payload ∨
        version = params.base58_script_prefix ∧ script = script_hash_script payload) := by
  obtain ⟨rfl, -⟩ := (base58check_decode_iff s 21 version payload).mp h
  have hof {version' : UInt8} {hash : List UInt8} (hlen : hash.length = 20)
      (hs : base58check version payload = base58check version' hash) : version = version' ∧ payload = hash := by
    rw [hs, (base58check_decode_iff _ 21 version' hash).mpr ⟨rfl, by omega⟩] at h
    obtain ⟨hv, hp⟩ := Prod.mk.inj (Option.some.inj h)
    exact ⟨hv.symm, hp.symm⟩
  constructor
  · intro haddress
    generalize hs : base58check version payload = s' at haddress
    cases haddress with
    | pubkey hash hlen =>
      obtain ⟨rfl, rfl⟩ := hof hlen hs
      exact ⟨hlen, Or.inl ⟨rfl, rfl⟩⟩
    | script hash hlen =>
      obtain ⟨rfl, rfl⟩ := hof hlen hs
      exact ⟨hlen, Or.inr ⟨rfl, rfl⟩⟩
  · rintro ⟨hlen, ⟨rfl, rfl⟩ | ⟨rfl, rfl⟩⟩
    · exact .pubkey payload hlen
    · exact .script payload hlen

theorem base58_hash_iff (s : List UInt8) : Base58Hash s ↔
    ∃ version payload, base58check_decode s 21 = some (version, payload) ∧ payload.length = 20 := by
  constructor
  · rintro ⟨version, hash, hlen, hs⟩
    exact ⟨version, hash, (base58check_decode_iff s 21 version hash).mpr ⟨hs, by omega⟩, hlen⟩
  · rintro ⟨version, payload, hdecode, hlen⟩
    exact ⟨version, payload, hlen, ((base58check_decode_iff s 21 version payload).mp hdecode).1⟩

theorem validate_base58_iff (net : Network) (s : List UInt8) (script : Script) :
    (∃ info, validate_base58 s (network_params net) = .ok info ∧ info.script = script) ↔
      HashAddress (network_params net) s script := by
  rw [validate_base58]
  cases hdecode : base58check_decode s 21 with
  | none =>
    have hnot : ¬HashAddress (network_params net) s script := by
      intro h
      obtain ⟨version, payload, hsome, -⟩ := (base58_hash_iff s).mp h.base58
      rw [hdecode] at hsome
      cases hsome
    split_ifs
    · simpa using hnot
    · simpa using hnot
  | some found =>
    obtain ⟨version, payload⟩ := found
    have hdiffer := prefixes_differ net
    rw [hash_address_iff hdecode]
    dsimp only
    split_ifs with hkey hhash hhead
    · simp only [Except.ok.injEq, exists_eq_left', hkey.1, hkey.2, hdiffer, true_and, false_and, or_false]
      exact eq_comm
    · have hother : version ≠ AddressParams.base58_pubkey_prefix (network_params net) := fun h => hkey ⟨hhash.1, h⟩
      simp only [Except.ok.injEq, exists_eq_left', hhash.1, hother, true_and, false_and, false_or]
      simp only [hhash.2, true_and]
      exact eq_comm
    · simp only [false_and, exists_false, false_iff]
      tauto
    · simp only [false_and, exists_false, false_iff]
      tauto

theorem address_to_script_iff (net : Network) (hs : Bounded s) :
    ∃ found, address_to_script s (network_params net) = .ok found ∧ ∀ script, found = some script ↔
      HashAddress (network_params net) s script ∨ ¬Base58Hash s ∧ WitnessScript (network_params net) s script := by
  rw [address_to_script]
  cases hfilter : (base58check_decode s 21).filter fun decoded => decoded.2.length = 20 with
  | some decoded =>
    obtain ⟨version, payload⟩ := decoded
    obtain ⟨hdecode, hlen⟩ := Option.filter_eq_some_iff.mp hfilter
    have hlen' : payload.length = 20 := decide_eq_true_iff.mp hlen
    have hbase : Base58Hash s := (base58_hash_iff s).mpr ⟨version, payload, hdecode, hlen'⟩
    have hdiffer := prefixes_differ net
    refine ⟨if version = AddressParams.base58_pubkey_prefix (network_params net) then some
      (pubkey_hash_script payload)
      else if version = AddressParams.base58_script_prefix (network_params net) then some
        (script_hash_script payload) else none,
      by dsimp only; split_ifs <;> rfl, ?_⟩
    intro script
    rw [hash_address_iff hdecode]
    simp only [hlen', hbase, not_true_eq_false, false_and, or_false, true_and]
    split_ifs with hkey hhash
    · simp only [Option.some.injEq, hkey, hdiffer, true_and, false_and, or_false]
      exact eq_comm
    · simp only [Option.some.injEq, hkey, false_and, false_or]
      simp only [hhash, true_and]
      exact eq_comm
    · simp only [hkey, hhash, false_and, or_false]
  | none =>
    have hbase : ¬Base58Hash s := by
      intro h
      obtain ⟨version, payload, hdecode, hlen⟩ := (base58_hash_iff s).mp h
      rw [hdecode, Option.filter_some, if_pos (decide_eq_true hlen)] at hfilter
      cases hfilter
    have hnot (script : Script) : ¬HashAddress (network_params net) s script := fun h => hbase h.base58
    obtain ⟨out, hout, hiff⟩ := witness_decode_iff hs
    simp only [hnot, hbase, not_false_eq_true, true_and, false_or]
    cases out with
    | none =>
      refine ⟨none, by rw [hout]; rfl, ?_⟩
      intro script
      refine iff_of_false (by simp) ?_
      rintro ⟨version, program, h, -⟩
      cases (hiff _ _ _).mpr h
    | some decoded =>
      obtain ⟨hrp, version, program⟩ := decoded
      refine ⟨if hrp = (network_params net).bech32_hrp then some (witness_script version program) else none,
        by rw [hout, ok_bind]; dsimp only; split_ifs <;> rfl, ?_⟩
      intro script
      by_cases hhrp : hrp = (network_params net).bech32_hrp
      · rw [if_pos hhrp, Option.some.injEq]
        constructor
        · rintro rfl
          exact ⟨version, program, hhrp ▸ (hiff hrp version program).mp rfl, rfl⟩
        · rintro ⟨version', program', h, rfl⟩
          obtain ⟨-, hrest⟩ := Prod.mk.inj (Option.some.inj ((hiff _ _ _).mpr h))
          obtain ⟨rfl, rfl⟩ := Prod.mk.inj hrest
          rfl
      · rw [if_neg hhrp]
        refine iff_of_false (by simp) ?_
        rintro ⟨version', program', h, -⟩
        exact hhrp (Prod.mk.inj (Option.some.inj ((hiff _ _ _).mpr h))).1

def encoding (version : ℕ) : Bech32Encoding := if version = 0 then .Bech32 else .Bech32m

omit [Platform] in
theorem encoding_sum (version : ℕ) : encoding_const (encoding version) = checksum_const version := by
  rw [encoding, checksum_const]
  split_ifs <;> rfl

omit [Platform] in
theorem witness_checked (h : WitnessAddress s (network_params net).bech32_hrp version program) :
    Checked s (network_params net).bech32_hrp (address_values (network_params net).bech32_hrp version program)
      (encoding version) := by
  have hv : version < 32 := lt_of_le_of_lt h.valid.version_le (by norm_num)
  have hsmall := address_values_small (network_params net).bech32_hrp hv program
  have haddress := h.address
  rw [witness_address_eq] at haddress
  refine ⟨h.length_le, ?_, h.uniform, haddress, h.hrp_ne, hsmall, by rw [address_values_length]; omega, ?_⟩
  · have hlower : ∀ c ∈ to_ascii_lowercase s, 32 < c ∧ c < 127 := by
      intro c hc
      rw [haddress] at hc
      rcases List.mem_append.mp hc with hc | hc
      · exact ⟨((network_hrp net).2.2 c hc).1, ((network_hrp net).2.2 c hc).2.1⟩
      · rcases List.mem_cons.mp hc with rfl | hc
        · decide
        · obtain ⟨v, hvalue, rfl⟩ := List.mem_map.mp hc
          have hsymbol := bech32_symbols _ (symbol32_mem (hsmall v hvalue))
          exact ⟨hsymbol.1, hsymbol.2.1⟩
    intro c hc
    obtain ⟨hgt, hlt⟩ := hlower _ (List.mem_map_of_mem hc)
    rw [UInt8.lt_iff_toNat_lt, lower_toNat] at hgt hlt
    rw [UInt8.lt_iff_toNat_lt, UInt8.lt_iff_toNat_lt]
    rw [show (32 : UInt8).toNat = 32 from rfl] at hgt ⊢
    rw [show (127 : UInt8).toNat = 127 from rfl] at hlt ⊢
    split_ifs at hgt hlt <;> omega
  · have hlen : 6 ≤ (regroup program ++ check_groups (polymod (network_params net).bech32_hrp
        (version :: regroup program ++ List.replicate 6 0) ^^^ checksum_const version)).length := by
      rw [List.length_append]
      exact Nat.le_add_left _ _
    rw [encoding_sum]
    exact ((values_iff _ hlen hsmall program).mpr rfl).1

theorem validate_address_iff (net : Network) (hs : Bounded s) :
    ∃ out, validate_address s (network_params net) = .ok out ∧
      ∀ script, (∃ info, out = .ok info ∧ info.script = script) ↔
        HashAddress (network_params net) s script ∨ WitnessScript (network_params net) s script := by
  rw [validate_address]
  by_cases hhead : has_hrp s (network_params net) = true
  · have hnot (script : Script) : ¬HashAddress (network_params net) s script := by
      intro h
      rw [hash_not_has_hrp h] at hhead
      cases hhead
    simp only [hnot, false_or, hhead, Bool.not_true, Bool.false_eq_true, if_false]
    obtain ⟨out, hout, hiff⟩ := bech32_decode_full_iff hs
    rw [hout, ok_bind]
    cases out with
    | error e =>
      refine ⟨.error e, rfl, ?_⟩
      intro script
      refine iff_of_false (by simp) ?_
      rintro ⟨version, program, h, -⟩
      cases (hiff _ _ _).mpr (witness_checked h)
    | ok decoded =>
      obtain ⟨hrp, values, enc⟩ := decoded
      have hchecked := (hiff hrp values enc).mp rfl
      obtain ⟨out, hvalidate, hscript⟩ := validate_values_iff (network_params net) hrp hchecked.small enc hchecked.sum
      refine ⟨out, hvalidate, ?_⟩
      intro script
      rw [hscript script]
      constructor
      · rintro ⟨hhrp, version, program, hvalid, hvalues, hscript⟩
        refine ⟨version, program, ⟨hchecked.uniform, ?_, (network_hrp net).1, hvalid, hchecked.length_le⟩, hscript⟩
        rw [hchecked.parts, witness_address_eq, hvalues, hhrp]
      · rintro ⟨version, program, h, hsame'⟩
        have hsame := Except.ok.inj ((hiff _ _ _).mpr (witness_checked h))
        obtain ⟨rfl, hrest⟩ := Prod.mk.inj hsame
        exact ⟨rfl, version, program, h.valid, (Prod.mk.inj hrest).1, hsame'⟩
  · have hnot (script : Script) : ¬WitnessScript (network_params net) s script :=
      fun h => hhead (witness_has_hrp h)
    rw [Bool.not_eq_true] at hhead
    simp only [hnot, or_false, hhead, Bool.not_false, if_true]
    exact ⟨_, rfl, validate_base58_iff net s⟩

def Canonical (params : AddressParams) (s : List UInt8) : Prop :=
  has_hrp s params = true → to_ascii_lowercase s = s

theorem script_address_iff (net : Network) (script : Script) (s : List UInt8) :
    script_address script (network_params net) = some s ↔ HashAddress (network_params net) s script ∨
      ∃ version program, ValidProgram version program ∧ script = witness_script version program ∧
        s = witness_address (network_params net).bech32_hrp version program := by
  constructor
  · intro h
    rw [script_address] at h
    rcases classify_cases script with ⟨hash, hlen, rfl, hclass⟩ | ⟨hash, hlen, rfl, hclass⟩ |
      ⟨version, program, hvalid, rfl, hclass | ⟨hclass, rfl, rfl⟩⟩ | hclass
    · rw [hclass] at h
      obtain rfl := Option.some.inj h
      exact Or.inl (.pubkey hash hlen)
    · rw [hclass] at h
      obtain rfl := Option.some.inj h
      exact Or.inl (.script hash hlen)
    · rw [hclass] at h
      exact Or.inr ⟨version, program, hvalid, rfl, (Option.some.inj h).symm⟩
    · rw [hclass] at h
      exact Or.inr ⟨1, [0x4e, 0x73], hvalid, rfl, (Option.some.inj h).symm⟩
    · rw [hclass] at h
      cases h
  · rintro (h | ⟨version, program, hvalid, rfl, rfl⟩)
    · cases h with
      | pubkey hash hlen => rw [script_address, classify_pubkey_hash hlen]
      | script hash hlen => rw [script_address, classify_script_hash hlen]
    · rw [script_address]
      rcases classify_witness hvalid with hclass | ⟨hclass, rfl, rfl⟩ <;> rw [hclass]

omit [Platform] in
theorem lower_symbols (values : List ℕ) (h : ∀ v ∈ values, v < 32) :
    to_ascii_lowercase (values.map symbol32) = values.map symbol32 := by
  rw [to_ascii_lowercase, List.map_map]
  exact List.map_congr_left fun v hv => (bech32_symbols _ (symbol32_mem (h v hv))).2.2.2

omit [Platform] in
theorem witness_address_is (net : Network) (h : ValidProgram version program) :
    WitnessAddress (witness_address (network_params net).bech32_hrp version program) (network_params net).bech32_hrp
      version program := by
  have hv : version < 32 := lt_of_le_of_lt h.version_le (by norm_num)
  have hlower : to_ascii_lowercase (witness_address (network_params net).bech32_hrp version program) =
      witness_address (network_params net).bech32_hrp version program := by
    have hsymbols := lower_symbols _ (address_values_small (network_params net).bech32_hrp hv program)
    have hhrp := lower_hrp net
    rw [to_ascii_lowercase] at hsymbols hhrp ⊢
    rw [witness_address_eq, List.map_append, List.map_cons, hsymbols, hhrp]
    rfl
  refine ⟨Or.inl hlower, hlower, (network_hrp net).1, h, ?_⟩
  rw [witness_address_eq, List.length_append, List.length_cons, List.length_map, address_values_length]
  have hhrp := (network_hrp net).2.1
  have hgroups := (regroup_length program).1
  have hle := h.length_le
  omega

omit [Platform] in
theorem base58_symbol_small : ∀ c ∈ BASE58_ALPHABET, c < 0x80 := forall_of_all (by decide)

theorem base58check_bounded (version : UInt8) (payload : List UInt8) : Bounded (base58check version payload) := by
  apply bounded_ascii
  intro c hc
  obtain ⟨zeros, num, hdata, hnum⟩ := exists_canonical (version :: payload ++ checksum (version :: payload))
  obtain ⟨digits, hdigits, hnumber⟩ := exists_digits num
  rw [base58check, hdata, base58_encode_raw_eq zeros hnum hdigits hnumber] at hc
  rcases List.mem_append.mp hc with hc | hc
  · rw [(List.mem_replicate.mp hc).2]
    decide
  obtain ⟨d, hd, rfl⟩ := List.mem_map.mp hc
  apply base58_symbol_small
  rw [symbol58, List.getD_eq_getElem?_getD,
    List.getElem?_eq_getElem (by rw [base58_length]; exact hdigits.small d hd), Option.getD_some]
  exact List.getElem_mem _

theorem HashAddress.bounded (h : HashAddress params s script) : Bounded s := by
  cases h with
  | pubkey hash _ => exact base58check_bounded _ hash
  | script hash _ => exact base58check_bounded _ hash

omit [Platform] in
theorem witness_bounded (h : ValidProgram version program) :
    Bounded (witness_address (network_params net).bech32_hrp version program) := by
  apply bounded_ascii
  intro c hc
  obtain ⟨-, hlt⟩ := (witness_checked (witness_address_is net h)).printable c hc
  exact UInt8.lt_trans hlt (by decide)

theorem readings_agree_iff (net : Network) (s : List UInt8) :
    (∀ script, HashAddress (network_params net) s script ∨ ¬Base58Hash s ∧
      WitnessScript (network_params net) s script ↔
      HashAddress (network_params net) s script ∨ WitnessScript (network_params net) s script) ↔
      ¬Clash (network_params net) s := by
  constructor
  · rintro h ⟨hbase, script, hwitness⟩
    rcases (h script).mpr (Or.inr hwitness) with hhash | ⟨hno, -⟩
    · have hhead := witness_has_hrp hwitness
      rw [hash_not_has_hrp hhash] at hhead
      cases hhead
    · exact hno hbase
  · intro h script
    refine ⟨fun hread => hread.imp_right And.right, ?_⟩
    rintro (hhash | hwitness)
    · exact Or.inl hhash
    · exact Or.inr ⟨fun hbase => h ⟨hbase, script, hwitness⟩, hwitness⟩

theorem script_address_of (net : Network)
    (h : HashAddress (network_params net) s script ∨ WitnessScript (network_params net) s script) :
    ∃ a, script_address script (network_params net) = some a ∧
      (a = s ∨ has_hrp s (network_params net) = true ∧ a = to_ascii_lowercase s) := by
  rcases h with h | h
  · exact ⟨s, (script_address_iff net script s).mpr (Or.inl h), Or.inl rfl⟩
  · have hhead := witness_has_hrp h
    obtain ⟨version, program, h, rfl⟩ := h
    exact ⟨_, (script_address_iff net _ _).mpr (Or.inr ⟨version, program, h.valid, rfl, h.address⟩),
      Or.inr ⟨hhead, rfl⟩⟩

theorem canonical_unique (net : Network) {t : List UInt8} (hs : Canonical (network_params net) s)
    (ht : Canonical (network_params net) t)
    (h : HashAddress (network_params net) s script ∨ WitnessScript (network_params net) s script)
    (h' : HashAddress (network_params net) t script ∨ WitnessScript (network_params net) t script) : s = t := by
  have hsame {s : List UInt8} (hs : Canonical (network_params net) s)
      (h : HashAddress (network_params net) s script ∨ WitnessScript (network_params net) s script) :
      script_address script (network_params net) = some s := by
    obtain ⟨a, ha, rfl | ⟨hhead, rfl⟩⟩ := script_address_of net h
    · exact ha
    · rw [ha, hs hhead]
  exact Option.some.inj ((hsame hs h).symm.trans (hsame ht h'))

/-- Addresses and scripts correspond, but for a string that is a base58 hash of some version and the address of a
witness program at once. -/
theorem addresses_exact (net : Network) :
    (∀ script a, script_address script (network_params net) = some a →
      (∃ info, validate_address a (network_params net) = .ok (.ok info) ∧ info.script = script) ∧
      (address_to_script a (network_params net) = .ok (some script) ↔ ¬Clash (network_params net) a)) ∧
    (∀ s : String, ∃ found out decoded, address_to_script (as_bytes s) (network_params net) = .ok found ∧
      validate_address (as_bytes s) (network_params net) = .ok out ∧ witness_decode (as_bytes s) = .ok decoded ∧
      ((∀ script, found = some script ↔ ∃ info, out = .ok info ∧ info.script = script) ↔
        ¬Clash (network_params net) (as_bytes s)) ∧
      ∀ script, (found = some script ∨ ∃ info, out = .ok info ∧ info.script = script) →
        ∃ a, script_address script (network_params net) = some a ∧
          (a = as_bytes s ∨ has_hrp (as_bytes s) (network_params net) = true ∧
            a = to_ascii_lowercase (as_bytes s))) ∧
    (∀ (s t : String) script, Canonical (network_params net) (as_bytes s) →
      Canonical (network_params net) (as_bytes t) →
      (address_to_script (as_bytes s) (network_params net) = .ok (some script) ∨
        ∃ info, validate_address (as_bytes s) (network_params net) = .ok (.ok info) ∧ info.script = script) →
      (address_to_script (as_bytes t) (network_params net) = .ok (some script) ∨
        ∃ info, validate_address (as_bytes t) (network_params net) = .ok (.ok info) ∧ info.script = script) →
      s = t) ∧
    (∀ version payload max_ret_len, payload.length + 1 ≤ max_ret_len →
      base58check_decode (base58check version payload) max_ret_len = some (version, payload)) ∧
    (∀ version program, ValidProgram version program →
      witness_decode (witness_address (network_params net).bech32_hrp version program) =
        .ok (some ((network_params net).bech32_hrp, version, program))) := by
  have hread {s : List UInt8} (hs : Bounded s) {script : Script}
      (h : address_to_script s (network_params net) = .ok (some script) ∨
        ∃ info, validate_address s (network_params net) = .ok (.ok info) ∧ info.script = script) :
      HashAddress (network_params net) s script ∨ WitnessScript (network_params net) s script := by
    obtain ⟨found, hfound, hscript⟩ := address_to_script_iff net hs
    obtain ⟨out, hout, hinfo⟩ := validate_address_iff net hs
    rcases h with h | ⟨info, h, hsame⟩
    · rw [hfound] at h
      exact ((hscript script).mp (Except.ok.inj h)).imp_right And.right
    · rw [hout] at h
      exact (hinfo script).mp ⟨info, Except.ok.inj h, hsame⟩
  refine ⟨?_, ?_, ?_, ?_, ?_⟩
  · intro script a h
    have hcases := (script_address_iff net script a).mp h
    have hbound : Bounded a := by
      rcases hcases with hhash | ⟨version, program, hvalid, -, rfl⟩
      · exact hhash.bounded
      · exact witness_bounded hvalid
    have hboth : HashAddress (network_params net) a script ∨ WitnessScript (network_params net) a script := by
      refine hcases.imp_right ?_
      rintro ⟨version, program, hvalid, rfl, rfl⟩
      exact ⟨version, program, witness_address_is net hvalid, rfl⟩
    obtain ⟨found, hfound, hscript⟩ := address_to_script_iff net hbound
    obtain ⟨out, hout, hinfo⟩ := validate_address_iff net hbound
    constructor
    · obtain ⟨info, hok, hsame⟩ := (hinfo script).mpr hboth
      exact ⟨info, by rw [hout, hok], hsame⟩
    · rw [hfound, Except.ok.injEq, hscript script]
      constructor
      · rintro (hhash | ⟨hno, -⟩) ⟨hbase, other, hwitness⟩
        · have hhead := witness_has_hrp hwitness
          rw [hash_not_has_hrp hhash] at hhead
          cases hhead
        · exact hno hbase
      · intro hclash
        exact ((readings_agree_iff net a).mpr hclash script).mpr hboth
  · intro s
    have hbound := bounded_as_bytes s
    obtain ⟨found, hfound, hscript⟩ := address_to_script_iff net hbound
    obtain ⟨out, hout, hinfo⟩ := validate_address_iff net hbound
    obtain ⟨decoded, hdecoded, -⟩ := witness_decode_iff hbound
    refine ⟨found, out, decoded, hfound, hout, hdecoded, ?_, ?_⟩
    · simp only [hscript, hinfo]
      exact readings_agree_iff net (as_bytes s)
    · intro script h
      apply script_address_of net
      rcases h with h | h
      · exact ((hscript script).mp h).imp_right And.right
      · exact (hinfo script).mp h
  · intro s t script hs ht h h'
    exact as_bytes_inj (canonical_unique net hs ht (hread (bounded_as_bytes s) h) (hread (bounded_as_bytes t) h'))
  · intro version payload max_ret_len h
    exact (base58check_decode_iff _ max_ret_len version payload).mpr ⟨rfl, h⟩
  · intro version program h
    obtain ⟨out, hout, hiff⟩ := witness_decode_iff (witness_bounded h : Bounded
      (witness_address (network_params net).bech32_hrp version program))
    rw [hout, (hiff _ version program).mpr (witness_address_is net h)]

end

section

def foreign_body : List UInt8 :=
  [0x55, 0xff, 0x72, 0x12, 0x63, 0x6f, 0x74, 0xaa, 0xb8, 0xc8, 0xad, 0x27, 0x04, 0x01, 0x1c, 0x7e, 0x34, 0xf0, 0x4b,
    0xa6, 0xc7]

def foreign_digest : Hash256 := 0x90608a155d4cd78af97589d6984ff12b48105fd4fbeac775fe18a7aa40755e2f

local instance : Platform :=
  { Platform.sample with sha256d := fun bytes => if bytes = foreign_body then foreign_digest else 0 }

def hidden_program : List UInt8 :=
  [0xc8, 0xa7, 0x34, 0x1a, 0xb4, 0x8f, 0x57, 0x8d, 0x30, 0xc3, 0xa8, 0x12, 0x09, 0x9a, 0xeb]

theorem foreign_version_hides_program :
    script_address (witness_script 14 hidden_program) (network_params .Mainnet) =
      some (as_bytes "bc1weznngx453atc6vxr4qfqnxht6ejx84") ∧
    validate_address (as_bytes "bc1weznngx453atc6vxr4qfqnxht6ejx84") (network_params .Mainnet) =
      .ok (.ok ⟨witness_script 14 hidden_program, none, some (14, hidden_program)⟩) ∧
    address_to_script (as_bytes "bc1weznngx453atc6vxr4qfqnxht6ejx84") (network_params .Mainnet) = .ok none := by
  decide +kernel

end

end AvilaNode.Address
