import AvilaNode.ScriptBytes

/-! Addresses: base58 with a checksum, and bech32 for witness programs. -/

namespace AvilaNode.Address

open Interpreter Utf8

structure AddressParams where
  base58_pubkey_prefix : UInt8
  base58_script_prefix : UInt8
  bech32_hrp : List UInt8

def network_params : Network → AddressParams
  | .Mainnet => ⟨0x00, 0x05, as_bytes "bc"⟩
  | .Testnet4 => ⟨0x6f, 0xc4, as_bytes "tb"⟩
  | .Signet => ⟨0x6f, 0xc4, as_bytes "tb"⟩
  | .Regtest => ⟨0x6f, 0xc4, as_bytes "bcrt"⟩

def BASE58_ALPHABET : List UInt8 := as_bytes "123456789ABCDEFGHJKLMNPQRSTUVWXYZabcdefghijkmnopqrstuvwxyz"

def BECH32_CHARSET : List UInt8 := as_bytes "qpzry9x8gf2tvdw0s3jn54khce6mua7l"

def BECH32_CONST : BitVec 32 := 1

def BECH32M_CONST : BitVec 32 := 0x2bc830a3

inductive Panic where
  | Slice
  | Underflow
deriving DecidableEq, Repr

def is_char_boundary (s : List UInt8) (i : ℕ) : Bool :=
  match s[i]? with
  | none => i == s.length
  | some byte => i == 0 || !continuation byte

def str_slice (s : List UInt8) (start stop : ℕ) : Except Panic (List UInt8) :=
  if start ≤ stop ∧ stop ≤ s.length ∧ is_char_boundary s start ∧ is_char_boundary s stop then
    .ok ((s.take stop).drop start)
  else .error .Slice

def slice (s : List ℕ) (start stop : ℕ) : Except Panic (List ℕ) :=
  if start ≤ stop ∧ stop ≤ s.length then .ok ((s.take stop).drop start) else .error .Slice

def sub (m n : ℕ) : Except Panic ℕ := if n ≤ m then .ok (m - n) else .error .Underflow

def rfind (s : List UInt8) (c : UInt8) : Option ℕ := (s.reverse.idxOf? c).map fun i => s.length - 1 - i

def lower_byte (c : UInt8) : UInt8 := if 0x41 ≤ c ∧ c ≤ 0x5a then c + 0x20 else c

def upper_byte (c : UInt8) : UInt8 := if 0x61 ≤ c ∧ c ≤ 0x7a then c - 0x20 else c

def to_ascii_lowercase (s : List UInt8) : List UInt8 := s.map lower_byte

def to_ascii_uppercase (s : List UInt8) : List UInt8 := s.map upper_byte

def div58 : ℕ → List UInt8 → List UInt8 × ℕ
  | rem, [] => ([], rem)
  | rem, byte :: num =>
    let acc := rem * 256 + byte.toNat
    let rest := div58 (acc % 58) num
    (UInt8.ofNat (acc / 58) :: rest.1, rest.2)

def digits58 : ℕ → List UInt8 → List ℕ
  | 0, _ => []
  | turns + 1, num =>
    if num.any (· != 0) then
      let next := div58 0 num
      next.2 :: digits58 turns next.1
    else []

def base58_encode_raw (data : List UInt8) : List UInt8 :=
  let zeros := (data.takeWhile (· == 0)).length
  let digits := digits58 (2 * data.length) data
  List.replicate zeros 0x31 ++ digits.reverse.map fun d => BASE58_ALPHABET.getD d 0

def checksum [Platform] (data : List UInt8) : List UInt8 := (Hash256.to_bytes (Platform.sha256d data)).take 4

def base58check [Platform] (version : UInt8) (payload : List UInt8) : List UInt8 :=
  let data := version :: payload
  base58_encode_raw (data ++ checksum data)

def GEN : List (BitVec 32) := [0x3b6a57b2, 0x26508e6d, 0x1ea119fa, 0x3d4233dd, 0x2a1462b3]

def feed (chk : BitVec 32) (v : ℕ) : BitVec 32 :=
  let top := chk >>> 25
  GEN.zipIdx.foldl (fun chk g => if top.getLsbD g.2 then chk ^^^ g.1 else chk)
    ((chk &&& 0x1ffffff) <<< 5 ^^^ BitVec.ofNat 32 v)

def expand_hrp (hrp : List UInt8) : List ℕ :=
  hrp.map (fun c => c.toNat >>> 5) ++ 0 :: hrp.map fun c => c.toNat &&& 0x1f

def polymod (hrp : List UInt8) (data : List ℕ) : BitVec 32 := (expand_hrp hrp ++ data).foldl feed 1

def emit_groups (acc : ℕ) : ℕ → ℕ → List ℕ × ℕ
  | 0, bits => ([], bits)
  | turns + 1, bits =>
    if 5 ≤ bits then
      let rest := emit_groups acc turns (bits - 5)
      (((acc >>> (bits - 5)) &&& 0x1f) :: rest.1, rest.2)
    else ([], bits)

def regroup_loop : ℕ → ℕ → List UInt8 → List ℕ
  | acc, bits, [] => if 0 < bits then [(acc <<< (5 - bits)) &&& 0x1f] else []
  | acc, bits, byte :: program =>
    let acc := (acc <<< 8 ||| byte.toNat) % 2 ^ 32
    let groups := emit_groups acc (bits + 8) (bits + 8)
    groups.1 ++ regroup_loop acc groups.2 program

def regroup (program : List UInt8) : List ℕ := regroup_loop 0 0 program

def checksum_const (version : ℕ) : BitVec 32 := if version = 0 then BECH32_CONST else BECH32M_CONST

def witness_address (hrp : List UInt8) (version : ℕ) (program : List UInt8) : List UInt8 :=
  let data := version :: regroup program
  let check := polymod hrp (data ++ List.replicate 6 0) ^^^ checksum_const version
  hrp ++ 0x31 :: (data.map (fun v => BECH32_CHARSET.getD v 0) ++
    [25, 20, 15, 10, 5, 0].map fun shift => BECH32_CHARSET.getD ((check >>> shift) &&& 0x1f).toNat 0)

def mul58_add (carry : ℕ) : List UInt8 → List UInt8 × ℕ
  | [] => ([], carry)
  | byte :: num =>
    let rest := mul58_add carry num
    let acc := byte.toNat * 58 + rest.2
    (UInt8.ofNat (acc &&& 0xff) :: rest.1, acc >>> 8)

def push_carry (room : ℕ) : ℕ → ℕ → List UInt8 → Option (List UInt8)
  | 0, _, num => some num
  | turns + 1, carry, num =>
    if 0 < carry then
      if room < num.length + 1 then none else push_carry room turns (carry >>> 8)
        (UInt8.ofNat (carry &&& 0xff) :: num)
    else some num

def decode58_loop (max_ret_len : ℕ) : ℕ → List UInt8 → Bool → List UInt8 → Option (List UInt8)
  | zeros, num, _, [] => some (List.replicate zeros 0 ++ num)
  | zeros, num, seen_nonzero, c :: s =>
    match BASE58_ALPHABET.idxOf? c with
    | none => none
    | some digit =>
      if !seen_nonzero ∧ c = 0x31 then
        if max_ret_len < zeros + 1 then none else decode58_loop max_ret_len (zeros + 1) num seen_nonzero s
      else
        let step := mul58_add digit num
        match push_carry (max_ret_len - zeros) 4 step.2 step.1 with
        | none => none
        | some num => decode58_loop max_ret_len zeros num true s

def base58_decode_bytes (s : List UInt8) (max_ret_len : ℕ) : Option (List UInt8) :=
  decode58_loop max_ret_len 0 [] false s

def base58check_decode [Platform] (s : List UInt8) (max_ret_len : ℕ) : Option (UInt8 × List UInt8) :=
  match base58_decode_bytes s (max_ret_len + 4) with
  | none => none
  | some data =>
    if data.length < 5 then none
    else
      let body := data.take (data.length - 4)
      let check := data.drop (data.length - 4)
      if checksum body ≠ check then none
      else
        match body with
        | version :: payload => some (version, payload)
        | [] => none

def bech32_values : List UInt8 → Option (List ℕ)
  | [] => some []
  | c :: s =>
    match BECH32_CHARSET.idxOf? c with
    | none => none
    | some v => (bech32_values s).map (v :: ·)

def bytes_loop : ℕ → ℕ → List ℕ → Option (List UInt8)
  | acc, bits, [] => if 5 ≤ bits ∨ (acc <<< (8 - bits)) &&& 0xff ≠ 0 then none else some []
  | acc, bits, v :: values =>
    let acc := (acc <<< 5 ||| v) % 2 ^ 32
    if 8 ≤ bits + 5 then
      (bytes_loop acc (bits + 5 - 8) values).map (UInt8.ofNat (acc >>> (bits + 5 - 8)) :: ·)
    else bytes_loop acc (bits + 5) values

def regroup_bytes (values : List ℕ) : Option (List UInt8) := bytes_loop 0 0 values

def witness_decode (s : List UInt8) : Except Panic (Option (List UInt8 × ℕ × List UInt8)) := do
  let lower := to_ascii_lowercase s
  if lower ≠ s ∧ to_ascii_uppercase s ≠ s then pure none
  else
    match rfind lower 0x31 with
    | none => pure none
    | some sep => do
      let tail ← sub (← sub lower.length sep) 1
      if sep = 0 ∨ tail < 7 ∨ 90 < lower.length then pure none
      else do
        let hrp ← str_slice lower 0 sep
        match bech32_values (← str_slice lower (sep + 1) lower.length) with
        | none => pure none
        | some values =>
          match values with
          | [] => pure none
          | version :: _ =>
            if 16 < version then pure none
            else if polymod hrp values ≠ checksum_const version then pure none
            else do
              let data ← slice values 1 (← sub values.length 6)
              match regroup_bytes data with
              | none => pure none
              | some program =>
                if program.length < 2 ∨ 40 < program.length then pure none
                else if version = 0 ∧ program.length ≠ 20 ∧ program.length ≠ 32 then pure none
                else pure (some (hrp, version, program))

structure AddressInfo where
  script : Script
  is_script : Option Bool
  witness : Option (ℕ × List UInt8)
deriving DecidableEq, Repr

inductive Bech32Encoding where
  | Bech32
  | Bech32m
deriving DecidableEq, Repr

abbrev DestError := String × List ℤ

def check_characters : ℕ → Bool → Bool → List UInt8 → List ℤ
  | _, _, _, [] => []
  | i, lower, upper, c :: s =>
    if 0x61 ≤ c ∧ c ≤ 0x7a then
      if upper then (i : ℤ) :: check_characters (i + 1) lower upper s else check_characters (i + 1) true upper s
    else if 0x41 ≤ c ∧ c ≤ 0x5a then
      if lower then (i : ℤ) :: check_characters (i + 1) lower upper s else check_characters (i + 1) lower true s
    else if c ≤ 32 ∨ 127 ≤ c then (i : ℤ) :: check_characters (i + 1) lower upper s
    else check_characters (i + 1) lower upper s

def located_values : ℕ → List UInt8 → Except ℕ (List ℕ)
  | _, [] => .ok []
  | i, c :: s =>
    match BECH32_CHARSET.idxOf? c with
    | none => .error i
    | some v => (located_values (i + 1) s).map (v :: ·)

def bech32_decode_full (s : List UInt8) :
    Except Panic (Except DestError (List UInt8 × List ℕ × Bech32Encoding)) := do
  if 90 < s.length then
    let stop := (BitVec.ofNat 32 s.length).toInt
    pure (.error ("Bech32 string too long", (List.range (stop - 90).toNat).map fun i => 90 + (i : ℤ)))
  else
    let locs := check_characters 0 false false s
    if locs ≠ [] then pure (.error ("Invalid character or mixed case", locs))
    else
      let lower := to_ascii_lowercase s
      match rfind lower 0x31 with
      | none => pure (.error ("Missing separator", []))
      | some pos =>
        if pos = 0 ∨ s.length ≤ pos + 6 then pure (.error ("Invalid separator position", [(pos : ℤ)]))
        else do
          let hrp ← str_slice lower 0 pos
          match located_values 0 (lower.drop (pos + 1)) with
          | .error i => pure (.error ("Invalid Base 32 character", [((pos + 1 + i : ℕ) : ℤ)]))
          | .ok values =>
            let pm := polymod hrp values
            if pm = BECH32_CONST then pure (.ok (hrp, values, .Bech32))
            else if pm = BECH32M_CONST then pure (.ok (hrp, values, .Bech32m))
            else pure (.error ("Invalid checksum", []))

def decode58_check : List UInt8 → Bool → List UInt8 → Bool
  | _, _, [] => true
  | num, seen_nonzero, c :: s =>
    match BASE58_ALPHABET.idxOf? c with
    | none => false
    | some digit =>
      if !seen_nonzero ∧ c = 0x31 then decode58_check num seen_nonzero s
      else
        let step := mul58_add digit num
        match push_carry 96 4 step.2 step.1 with
        | none => false
        | some num => decode58_check num true s

def base58_decode (s : List UInt8) : Bool := if s = [] then false else decode58_check [] false s

def pubkey_hash_script (hash : List UInt8) : Script := [0x76, 0xa9, 0x14] ++ hash ++ [0x88, 0xac]

def script_hash_script (hash : List UInt8) : Script := [0xa9, 0x14] ++ hash ++ [0x87]

def witness_script (version : ℕ) (program : List UInt8) : Script :=
  (if version = 0 then OP_0 else OP_1 + UInt8.ofNat version - 1) :: push_slice program

def validate_base58 [Platform] (s : List UInt8) (params : AddressParams) : Except DestError AddressInfo :=
  match base58check_decode s 21 with
  | some (version, payload) =>
    if payload.length = 20 ∧ version = params.base58_pubkey_prefix then
      .ok ⟨pubkey_hash_script payload, some false, none⟩
    else if payload.length = 20 ∧ version = params.base58_script_prefix then
      .ok ⟨script_hash_script payload, some true, none⟩
    else if version = params.base58_pubkey_prefix ∨ version = params.base58_script_prefix then
      .error ("Invalid length for Base58 address (P2PKH or P2SH)", [])
    else .error ("Invalid or unsupported Base58-encoded address.", [])
  | none =>
    if base58_decode s then .error ("Invalid checksum or length of Base58 address (P2PKH or P2SH)", [])
    else .error ("Invalid or unsupported Segwit (Bech32) or Base58 encoding.", [])

def size_text (program : List UInt8) : String :=
  toString program.length ++ (if program.length = 1 then " byte" else " bytes")

def text (s : List UInt8) : String := from_utf8_lossy s

def validate_values (params : AddressParams) (hrp : List UInt8) (values : List ℕ) (enc : Bech32Encoding) :
    Except Panic (Except DestError AddressInfo) := do
  if values.length ≤ 6 then pure (.error ("Empty Bech32 data section", []))
  else if hrp ≠ params.bech32_hrp then
    pure (.error ("Invalid or unsupported prefix for Segwit (Bech32) address (expected " ++ text params.bech32_hrp ++
      ", got " ++ text hrp ++ ").", []))
  else
    let version := values.getD 0 0
    if version = 0 ∧ enc = .Bech32m then
      pure (.error ("Version 0 witness address must use Bech32 checksum", []))
    else if version ≠ 0 ∧ enc = .Bech32 then
      pure (.error ("Version 1+ witness address must use Bech32m checksum", []))
    else do
      let data ← slice values 1 (← sub values.length 6)
      match regroup_bytes data with
      | none => pure (.error ("Invalid padding in Bech32 data section", []))
      | some program =>
        if version = 0 then
          if program.length ≠ 20 ∧ program.length ≠ 32 then
            pure (.error ("Invalid Bech32 v0 address program size (" ++ size_text program ++ "), per BIP141", []))
          else pure (.ok ⟨witness_script version program, some false, some (version, program)⟩)
        else if 16 < version then pure (.error ("Invalid Bech32 address witness version", []))
        else if program.length < 2 ∨ 40 < program.length then
          pure (.error ("Invalid Bech32 address program size (" ++ size_text program ++ ")", []))
        else pure (.ok ⟨witness_script version program,
          if version = 1 ∧ program.length = 32 then some true else none, some (version, program)⟩)

def has_hrp (s : List UInt8) (params : AddressParams) : Bool :=
  params.bech32_hrp.length ≤ s.length ∧
    to_ascii_lowercase (s.take params.bech32_hrp.length) = to_ascii_lowercase params.bech32_hrp

def validate_address [Platform] (s : List UInt8) (params : AddressParams) :
    Except Panic (Except DestError AddressInfo) := do
  if !has_hrp s params then pure (validate_base58 s params)
  else
    match ← bech32_decode_full s with
    | .error e => pure (.error e)
    | .ok (hrp, values, enc) => validate_values params hrp values enc

def address_to_script [Platform] (address : List UInt8) (params : AddressParams) : Except Panic (Option Script) := do
  let base58 := (base58check_decode address 21).filter fun decoded => decoded.2.length = 20
  match base58 with
  | some (version, payload) =>
    if version = params.base58_pubkey_prefix then pure (some (pubkey_hash_script payload))
    else if version = params.base58_script_prefix then pure (some (script_hash_script payload))
    else pure none
  | none =>
    match ← witness_decode address with
    | some (hrp, version, program) =>
      if hrp = params.bech32_hrp then pure (some (witness_script version program)) else pure none
    | none => pure none

inductive ScriptType where
  | Anchor
  | Witness (version : ℕ) (program : List UInt8)
  | PubKeyHash (hash : List UInt8)
  | ScriptHash (hash : List UInt8)
  | Other
deriving DecidableEq, Repr

def classify (script : Script) : ScriptType :=
  if script = [0x51, 0x02, 0x4e, 0x73] then .Anchor
  else
    match (witness_program script).filter fun w => w.1 ≠ 0 ∨ w.2.length = 20 ∨ w.2.length = 32 with
    | some (version, program) => .Witness version.toNat program
    | none =>
      if script.length = 25 ∧ script.take 3 = [0x76, 0xa9, 0x14] ∧ script.drop 23 = [0x88, 0xac] then
        .PubKeyHash ((script.drop 3).take 20)
      else if is_p2sh script then .ScriptHash ((script.drop 2).take 20)
      else .Other

def script_address [Platform] (script : Script) (params : AddressParams) : Option (List UInt8) :=
  match classify script with
  | .PubKeyHash hash => some (base58check params.base58_pubkey_prefix hash)
  | .ScriptHash hash => some (base58check params.base58_script_prefix hash)
  | .Witness version program => some (witness_address params.bech32_hrp version program)
  | .Anchor => some (witness_address params.bech32_hrp 1 [0x4e, 0x73])
  | .Other => none

end AvilaNode.Address
