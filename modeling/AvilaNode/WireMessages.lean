import AvilaNode.BlockCodec
import AvilaNode.FrameCodec
import AvilaNode.PeerSync

/-! The payloads of the messages between peers. -/

namespace AvilaNode.Wire

open ByteReader ByteStrings Decoder FrameCodec Utf8

def MSG_WITNESS_FLAG : ℕ := 0x40000000

def MSG_WITNESS_BLOCK : ℕ := MSG_WITNESS_FLAG ||| 2

def PROTOCOL_VERSION : BitVec 32 := 70017

def MAX_INV_SZ : ℕ := 50000

def MAX_ADDR_TO_SEND : ℕ := 1000

def MAX_SKETCH_BYTES : ℕ := 64 * 1024

def MAX_RECONCIL_IDS : ℕ := 16384

def MAX_CMPCT_TX_COUNT : ℕ := 20000

def MAX_LOCATOR : ℕ := 101

structure NetAddr where
  services : BitVec 64
  ip : Vector UInt8 16
  port : BitVec 16
deriving DecidableEq

structure AddrEntry where
  time : BitVec 32
  addr : NetAddr
deriving DecidableEq

structure AddrV2Entry where
  time : BitVec 32
  services : BitVec 64
  network : UInt8
  addr : List UInt8
  port : BitVec 16
deriving DecidableEq

structure GetHeaders where
  locator : List BlockHash
  stop : BlockHash
deriving DecidableEq

structure CFRange where
  filter_type : UInt8
  start_height : BitVec 32
  stop_hash : BlockHash
deriving DecidableEq

structure CFilter where
  filter_type : UInt8
  block_hash : BlockHash
  filter : List UInt8
deriving DecidableEq

structure CFHeaders where
  filter_type : UInt8
  stop_hash : BlockHash
  prev_filter_header : Hash256
  filter_hashes : List Hash256
deriving DecidableEq

structure CFCheckptReq where
  filter_type : UInt8
  stop_hash : BlockHash
deriving DecidableEq

structure CFCheckpt where
  filter_type : UInt8
  stop_hash : BlockHash
  filter_headers : List Hash256
deriving DecidableEq

structure Version where
  version : BitVec 32
  services : BitVec 64
  timestamp : BitVec 64
  addr_recv : NetAddr
  addr_from : NetAddr
  nonce : BitVec 64
  user_agent : String
  start_height : BitVec 32
  relay : Bool
deriving DecidableEq

structure Reject where
  message : String
  code : UInt8
  reason : String
  data : List UInt8
deriving DecidableEq

structure SendRecon where
  is_sender : Bool
  is_responder : Bool
  version : BitVec 32
  salt : BitVec 64
deriving DecidableEq

structure PrefilledTx where
  index_diff : BitVec 16
  tx : Transaction
deriving DecidableEq

structure CmpctBlock where
  header : BlockHeader
  nonce : BitVec 64
  shortids : List (Vector UInt8 6)
  prefilled : List PrefilledTx
deriving DecidableEq

structure GetBlockTxn where
  block_hash : BlockHash
  indexes : List (BitVec 32)
deriving DecidableEq

structure BlockTxn where
  block_hash : BlockHash
  txs : List Transaction
deriving DecidableEq

inductive Message where
  | Version (v : Version)
  | Verack
  | Ping (nonce : BitVec 64)
  | Pong (nonce : BitVec 64)
  | SendHeaders
  | WtxidRelay
  | SendAddrV2
  | Feature (id : String) (data : List UInt8)
  | SendUtxProof
  | SendAdvice
  | FeeFilter (rate : BitVec 64)
  | GetAddr
  | Addr (entries : List AddrEntry)
  | AddrV2 (entries : List AddrV2Entry)
  | Inv (v : List InvVector)
  | GetData (v : List InvVector)
  | NotFound (v : List InvVector)
  | GetHeaders (gh : GetHeaders)
  | Headers (headers : List BlockHeader)
  | Block (block : Block)
  | Tx (tx : Transaction)
  | Mempool
  | GetCFilters (r : CFRange)
  | CFilter (f : CFilter)
  | GetCFHeaders (r : CFRange)
  | CFHeaders (h : CFHeaders)
  | GetCFCheckpt (r : CFCheckptReq)
  | CFCheckpt (c : CFCheckpt)
  | Reject (r : Reject)
  | SendCmpct (announce : Bool) (version : BitVec 64)
  | CmpctBlock (c : CmpctBlock)
  | GetBlockTxn (r : GetBlockTxn)
  | BlockTxn (b : BlockTxn)
  | SendRecon (r : SendRecon)
  | ReqRecon (sketch : List UInt8)
  | Sketch (sketch : List UInt8)
  | ReconcilDiff (ask_parents : BitVec 32) (short_ids : List (BitVec 32))
  | ReqBisec
  | UtxoProof (block_hash : BlockHash) (bundle : List UInt8)
  | GetAdvice (block_hash : BlockHash)
  | Advice (block_hash : BlockHash) (data : List UInt8)
  | Unknown (command : String) (payload : List UInt8)

/-- A failed read, where the source has its text, or a text of the message's own. -/
inductive Detail where
  | read (e : DecodeError)
  | text (s : String)
deriving DecidableEq, Repr

structure PayloadError where
  command : String
  detail : Detail
deriving DecidableEq, Repr

abbrev PayloadReader := ByteReader PayloadError

def lift {α : Type} (command : String) (read : Decoder α) : PayloadReader α := fun bytes =>
  match read bytes with
  | .error e => .error ⟨command, .read e⟩
  | .ok r => .ok r

def payload_err {α : Type} (command : String) (detail : String) : PayloadReader α := throw ⟨command, .text detail⟩

def get_list {α : Type} (command : String) (bound : ℕ) (detail : ℕ → String) (item : PayloadReader α) :
    PayloadReader (List α) := do
  let count ← lift command read_compact_size
  if bound < count then payload_err command (detail count) else repeated item count

def put_list {α : Type} (write : α → List UInt8) (values : List α) : List UInt8 :=
  write_compact_size values.length ++ values.flatMap write

def read_vector (n : ℕ) : Decoder (Vector UInt8 n) := do
  let bytes ← read_bytes n
  pure (to_array n bytes)

def read_port : Decoder (BitVec 16) := do
  let bytes ← read_bytes 2
  pure (BitVec.ofNat 16 (value bytes.reverse))

def put_port (port : BitVec 16) : List UInt8 := (le 2 port.toNat).reverse

def put_bool (b : Bool) : List UInt8 := [if b then 1 else 0]

def read_bool : Decoder Bool := do
  let byte ← read_u8
  pure (byte != 0)

def get_net_addr (command : String) : PayloadReader NetAddr := do
  let services ← lift command (read_word 64)
  let ip ← lift command (read_vector 16)
  let port ← lift command read_port
  pure ⟨services, ip, port⟩

def put_net_addr (addr : NetAddr) : List UInt8 := write_word addr.services ++ addr.ip.toList ++ put_port addr.port

def get_addr_entry (command : String) : PayloadReader AddrEntry := do
  let time ← lift command (read_word 32)
  let addr ← get_net_addr command
  pure ⟨time, addr⟩

def put_addr_entry (e : AddrEntry) : List UInt8 := write_word e.time ++ put_net_addr e.addr

def get_addr_v2_entry (command : String) : PayloadReader AddrV2Entry := do
  let time ← lift command (read_word 32)
  let services ← lift command read_compact_size
  let network ← lift command read_u8
  let addr_len ← lift command read_u8
  let addr ← lift command (read_bytes addr_len.toNat)
  let port ← lift command read_port
  pure ⟨time, BitVec.ofNat 64 services, network, addr, port⟩

def put_addr_v2_entry (e : AddrV2Entry) : List UInt8 :=
  write_word e.time ++ write_compact_size e.services.toNat ++ [e.network] ++ [UInt8.ofNat (min e.addr.length 255)]
    ++ e.addr ++ put_port e.port

def inv_type_to_u32 : InvType → ℕ
  | .Tx => 1
  | .Block => 2
  | .FilteredBlock => 3
  | .CompactBlock => 4
  | .Wtx => 5
  | .WitnessBlock => MSG_WITNESS_BLOCK
  | .WitnessTx => MSG_WITNESS_FLAG ||| 1
  | .Other v => v

def inv_type_of_u32 (raw : ℕ) : InvType :=
  if raw = 1 then .Tx
  else if raw = 2 then .Block
  else if raw = 3 then .FilteredBlock
  else if raw = 4 then .CompactBlock
  else if raw = 5 then .Wtx
  else if raw = MSG_WITNESS_BLOCK then .WitnessBlock
  else if raw = MSG_WITNESS_FLAG ||| 1 then .WitnessTx
  else .Other raw

def get_inv_vector (command : String) : PayloadReader InvVector := do
  let raw ← lift command read_u32_le
  let hash ← lift command read_hash
  pure ⟨inv_type_of_u32 raw, hash⟩

def put_inv_vector (inv : InvVector) : List UInt8 := le 4 (inv_type_to_u32 inv.inv_type) ++ inv.hash.to_bytes

def get_inv_list (command : String) : PayloadReader (List InvVector) :=
  get_list command MAX_INV_SZ (fun count => s!"inv count {count} exceeds MAX_INV_SZ") (get_inv_vector command)

def put_inv_list (invs : List InvVector) : List UInt8 := put_list put_inv_vector invs

def get_prefilled_tx (command : String) : PayloadReader PrefilledTx := do
  let index_diff ← lift command read_compact_size
  if 0xffff < index_diff then payload_err command "prefilled index exceeds u16"
  else
    let tx ← lift command Transaction.read
    pure ⟨BitVec.ofNat 16 index_diff, tx⟩

def get_prefilled (command : String) : PayloadReader (List PrefilledTx) :=
  get_list command MAX_CMPCT_TX_COUNT (fun _ => "prefilled count exceeds bound") (get_prefilled_tx command)

def put_prefilled (prefilled : List PrefilledTx) : List UInt8 :=
  put_list (fun p => write_compact_size p.index_diff.toNat ++ p.tx.encode) prefilled

def get_u32_diff (command : String) : PayloadReader (BitVec 32) := do
  let diff ← lift command read_u16_le
  pure (BitVec.ofNat 32 diff)

def get_u32_diffs (command : String) : PayloadReader (List (BitVec 32)) :=
  get_list command MAX_CMPCT_TX_COUNT (fun _ => "index count exceeds bound") (get_u32_diff command)

def put_u32_diffs (indexes : List (BitVec 32)) : List UInt8 :=
  put_list (fun i => le 2 (if i.toNat ≤ 0xffff then i.toNat else 0xffff)) indexes

def get_header (command : String) : PayloadReader BlockHeader := do
  let header ← lift command BlockHeader.read
  let tx_count ← lift command read_u8
  if tx_count ≠ 0 then payload_err command "headers entry carries a nonzero tx count" else pure header

namespace Message

def command_name : Message → String
  | Version _ => "version"
  | Verack => "verack"
  | Ping _ => "ping"
  | Pong _ => "pong"
  | SendHeaders => "sendheaders"
  | WtxidRelay => "wtxidrelay"
  | SendAddrV2 => "sendaddrv2"
  | Feature _ _ => "feature"
  | SendUtxProof => "sendutxproof"
  | SendAdvice => "sendadvice"
  | FeeFilter _ => "feefilter"
  | GetAddr => "getaddr"
  | Addr _ => "addr"
  | AddrV2 _ => "addrv2"
  | Inv _ => "inv"
  | GetData _ => "getdata"
  | NotFound _ => "notfound"
  | GetHeaders _ => "getheaders"
  | Headers _ => "headers"
  | Block _ => "block"
  | Tx _ => "tx"
  | Mempool => "mempool"
  | GetCFilters _ => "getcfilters"
  | CFilter _ => "cfilter"
  | GetCFHeaders _ => "getcfheaders"
  | CFHeaders _ => "cfheaders"
  | GetCFCheckpt _ => "getcfcheckpt"
  | CFCheckpt _ => "cfcheckpt"
  | Reject _ => "reject"
  | SendCmpct _ _ => "sendcmpct"
  | CmpctBlock _ => "cmpctblock"
  | GetBlockTxn _ => "getblocktxn"
  | BlockTxn _ => "blocktxn"
  | SendRecon _ => "sendrecon"
  | ReqRecon _ => "reqrecon"
  | Sketch _ => "sketch"
  | ReconcilDiff _ _ => "reconcildiff"
  | ReqBisec => "reqbisec"
  | UtxoProof _ _ => "utxproof"
  | GetAdvice _ => "getadvice"
  | Advice _ _ => "advice"
  | Unknown command _ => command

def command (m : Message) : Option Command := Command.new m.command_name

def encode : Message → List UInt8
  | Version v =>
    write_word v.version ++ write_word v.services ++ write_word v.timestamp ++ put_net_addr v.addr_recv
      ++ put_net_addr v.addr_from ++ write_word v.nonce ++ write_var_bytes (as_bytes v.user_agent)
      ++ write_word v.start_height ++ put_bool v.relay
  | Ping nonce | Pong nonce => write_word nonce
  | FeeFilter rate => write_word rate
  | Addr entries => put_list put_addr_entry entries
  | AddrV2 entries => put_list put_addr_v2_entry entries
  | Inv v | GetData v | NotFound v => put_inv_list v
  | GetHeaders gh => write_word PROTOCOL_VERSION ++ put_list Hash256.to_bytes gh.locator ++ gh.stop.to_bytes
  | Headers headers => put_list (fun header => header.encode ++ [0]) headers
  | GetCFilters r | GetCFHeaders r => [r.filter_type] ++ write_word r.start_height ++ r.stop_hash.to_bytes
  | GetCFCheckpt r => [r.filter_type] ++ r.stop_hash.to_bytes
  | CFilter f => [f.filter_type] ++ f.block_hash.to_bytes ++ write_var_bytes f.filter
  | CFHeaders h =>
    [h.filter_type] ++ h.stop_hash.to_bytes ++ h.prev_filter_header.to_bytes ++
      put_list Hash256.to_bytes h.filter_hashes
  | CFCheckpt c => [c.filter_type] ++ c.stop_hash.to_bytes ++ put_list Hash256.to_bytes c.filter_headers
  | Block block => block.encode
  | Tx tx => tx.encode
  | Reject r => write_var_bytes (as_bytes r.message) ++ [r.code] ++ write_var_bytes (as_bytes r.reason) ++ r.data
  | Feature id data => write_var_bytes (as_bytes id) ++ write_var_bytes data
  | Unknown _ payload => payload
  | Verack | SendHeaders | WtxidRelay | SendAddrV2 | SendUtxProof | SendAdvice | GetAddr | Mempool | ReqBisec => []
  | SendCmpct announce version => put_bool announce ++ write_word version
  | CmpctBlock c =>
    c.header.encode ++ write_word c.nonce ++ put_list Vector.toList c.shortids ++ put_prefilled c.prefilled
  | GetBlockTxn r => r.block_hash.to_bytes ++ put_u32_diffs r.indexes
  | BlockTxn b => b.block_hash.to_bytes ++ put_list Transaction.encode b.txs
  | SendRecon r => put_bool r.is_sender ++ put_bool r.is_responder ++ write_word r.version ++ write_word r.salt
  | ReqRecon sk | Sketch sk => write_var_bytes sk
  | ReconcilDiff ask_parents short_ids => write_word ask_parents ++ put_list write_word short_ids
  | UtxoProof block_hash bundle => block_hash.to_bytes ++ write_var_bytes bundle
  | GetAdvice block_hash => block_hash.to_bytes
  | Advice block_hash data => block_hash.to_bytes ++ write_var_bytes data

/-- The layout of a known command. `len` is the length of the whole payload. -/
def reader (name : String) (len : ℕ) : Option (PayloadReader Message) :=
  match name with
  | "version" => some do
    let version ← lift name (read_word 32)
    let services ← lift name (read_word 64)
    let timestamp ← lift name (read_word 64)
    let addr_recv ← get_net_addr name
    let addr_from ← get_net_addr name
    let nonce ← lift name (read_word 64)
    let agent_bytes ← lift name read_var_bytes
    let start_height ← lift name (read_word 32)
    let rest ← get
    -- `relay` is absent on peers that predate it.
    let relay ← if 0 < rest.length then lift name read_bool else pure true
    pure (.Version ⟨version, services, timestamp, addr_recv, addr_from, nonce, from_utf8_lossy agent_bytes,
      start_height,
      relay⟩)
  | "verack" => some (pure .Verack)
  | "ping" => some do
    let nonce ← lift name (read_word 64)
    pure (.Ping nonce)
  | "pong" => some do
    let nonce ← lift name (read_word 64)
    pure (.Pong nonce)
  | "sendheaders" => some (pure .SendHeaders)
  | "wtxidrelay" => some (pure .WtxidRelay)
  | "sendaddrv2" => some (pure .SendAddrV2)
  | "feature" => some do
    let id_len ← lift name read_compact_size
    if id_len < 4 ∨ 80 < id_len then payload_err name "feature id length outside 4..=80"
    else
      let id_bytes ← lift name (read_bytes id_len)
      let data_len ← lift name read_compact_size
      if 512 < data_len then payload_err name "feature data exceeds 512 bytes"
      else
        let data ← lift name (read_bytes data_len)
        pure (.Feature (from_utf8_lossy id_bytes) data)
  | "sendutxproof" => some (pure .SendUtxProof)
  | "sendadvice" => some (pure .SendAdvice)
  | "getaddr" => some (pure .GetAddr)
  | "mempool" => some (pure .Mempool)
  | "feefilter" => some do
    let rate ← lift name (read_word 64)
    pure (.FeeFilter rate)
  | "addr" => some do
    let entries ← get_list name MAX_ADDR_TO_SEND (fun count => s!"addr count {count} exceeds MAX_ADDR_TO_SEND")
      (get_addr_entry name)
    pure (.Addr entries)
  | "addrv2" => some do
    let entries ← get_list name MAX_ADDR_TO_SEND (fun count => s!"addrv2 count {count} exceeds MAX_ADDR_TO_SEND")
      (get_addr_v2_entry name)
    pure (.AddrV2 entries)
  | "inv" => some do
    let v ← get_inv_list name
    pure (.Inv v)
  | "getdata" => some do
    let v ← get_inv_list name
    pure (.GetData v)
  | "notfound" => some do
    let v ← get_inv_list name
    pure (.NotFound v)
  | "getheaders" => some do
    let _version ← lift name (read_word 32)
    let locator ← get_list name MAX_LOCATOR (fun count => s!"locator count {count} exceeds bound")
      (lift name read_hash)
    let stop ← lift name read_hash
    pure (.GetHeaders ⟨locator, stop⟩)
  | "getcfilters" | "getcfheaders" => some do
    let filter_type ← lift name read_u8
    let start_height ← lift name (read_word 32)
    let stop_hash ← lift name read_hash
    pure (if name = "getcfilters" then .GetCFilters ⟨filter_type, start_height, stop_hash⟩
      else .GetCFHeaders ⟨filter_type, start_height, stop_hash⟩)
  | "getcfcheckpt" => some do
    let filter_type ← lift name read_u8
    let stop_hash ← lift name read_hash
    pure (.GetCFCheckpt ⟨filter_type, stop_hash⟩)
  | "cfilter" => some do
    let filter_type ← lift name read_u8
    let block_hash ← lift name read_hash
    let filter ← lift name read_var_bytes
    pure (.CFilter ⟨filter_type, block_hash, filter⟩)
  | "cfheaders" | "cfcheckpt" => some do
    let filter_type ← lift name read_u8
    let stop_hash ← lift name read_hash
    if name = "cfheaders" then
      let prev ← lift name read_hash
      let filter_hashes ← get_list name MAX_HEADERS_RESULTS
        (fun count => s!"cfheaders count {count} exceeds MAX_HEADERS_RESULTS") (lift name read_hash)
      pure (.CFHeaders ⟨filter_type, stop_hash, prev, filter_hashes⟩)
    else
      let filter_headers ← get_list name MAX_HEADERS_RESULTS
        (fun count => s!"cfcheckpt count {count} exceeds MAX_HEADERS_RESULTS") (lift name read_hash)
      pure (.CFCheckpt ⟨filter_type, stop_hash, filter_headers⟩)
  | "headers" => some do
    let headers ← get_list name MAX_HEADERS_RESULTS
      (fun count => s!"headers count {count} exceeds MAX_HEADERS_RESULTS")
      (get_header name)
    pure (.Headers headers)
  | "block" => some do
    let block ← lift name Block.read
    pure (.Block block)
  | "tx" => some do
    let tx ← lift name Transaction.read
    pure (.Tx tx)
  | "reject" => some do
    let message ← lift name read_var_bytes
    let code ← lift name read_u8
    let reason ← lift name read_var_bytes
    let rest ← get
    let data ← lift name (read_bytes rest.length)
    pure (.Reject ⟨from_utf8_lossy message, code, from_utf8_lossy reason, data⟩)
  | "sendcmpct" => some do
    -- A bare version of 8 bytes is tolerated.
    let announce ← if 8 < len then lift name read_bool else pure false
    let version ← lift name (read_word 64)
    pure (.SendCmpct announce version)
  | "cmpctblock" => some do
    let header ← lift name BlockHeader.read
    let nonce ← lift name (read_word 64)
    let shortids ← get_list name MAX_CMPCT_TX_COUNT (fun _ => "shortid count exceeds bound")
      (lift name (read_vector 6))
    let prefilled ← get_prefilled name
    pure (.CmpctBlock ⟨header, nonce, shortids, prefilled⟩)
  | "getblocktxn" => some do
    let block_hash ← lift name read_hash
    let indexes ← get_u32_diffs name
    pure (.GetBlockTxn ⟨block_hash, indexes⟩)
  | "blocktxn" => some do
    let block_hash ← lift name read_hash
    let txs ← get_list name MAX_CMPCT_TX_COUNT (fun _ => "tx count exceeds bound") (lift name Transaction.read)
    pure (.BlockTxn ⟨block_hash, txs⟩)
  | "sendrecon" => some do
    let is_sender ← lift name read_bool
    let is_responder ← lift name read_bool
    let version ← lift name (read_word 32)
    let salt ← lift name (read_word 64)
    pure (.SendRecon ⟨is_sender, is_responder, version, salt⟩)
  | "reqrecon" | "sketch" => some do
    let sk ← lift name read_var_bytes
    if MAX_SKETCH_BYTES < sk.length then payload_err name "sketch exceeds capacity bound"
    else pure (if name = "reqrecon" then .ReqRecon sk else .Sketch sk)
  | "reconcildiff" => some do
    let ask_parents ← lift name (read_word 32)
    let short_ids ← get_list name MAX_RECONCIL_IDS (fun _ => "reconcildiff count too large")
      (lift name (read_word 32))
    pure (.ReconcilDiff ask_parents short_ids)
  | "reqbisec" => some (pure .ReqBisec)
  | "utxproof" => some do
    let block_hash ← lift name read_hash
    let bundle ← lift name read_var_bytes
    pure (.UtxoProof block_hash bundle)
  | "getadvice" => some do
    let block_hash ← lift name read_hash
    pure (.GetAdvice block_hash)
  | "advice" => some do
    let block_hash ← lift name read_hash
    let data ← lift name read_var_bytes
    pure (.Advice block_hash data)
  | _ => none

def decode (command : Command) (payload : List UInt8) : Except PayloadError Message :=
  match reader command.name payload.length with
  | none => .ok (.Unknown command.name payload)
  | some read =>
    match read payload with
    | .error e => .error e
    | .ok (msg, []) => .ok msg
    | .ok (_, rest) => .error ⟨command.name, .read (.TrailingBytes rest.length)⟩

end Message

end AvilaNode.Wire
