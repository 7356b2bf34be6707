import AvilaNode.WireMessages

/-! What the decoder of payloads makes of the encoder's. -/

namespace AvilaNode.Wire

open ByteReader ByteStrings Decoder FrameCodec Utf8

variable {α : Type}

variable {bytes : List UInt8}

variable {write : α → List UInt8} {item : PayloadReader α} {read : Decoder α} {values : List α} (command : String)
  {e : AddrV2Entry}

theorem lift_reads {a : α} (h : Reads read bytes a) (command : String) :
    Reads (lift command read) bytes a := by
  intro rest
  rw [lift, h rest]

theorem lift_fails (h : Fails read bytes) (command : String) :
    Fails (lift command read) bytes := by
  intro rest
  obtain ⟨e, he⟩ := h rest
  rw [lift, he]
  exact ⟨_, rfl⟩

variable (detail : ℕ → String)

theorem list_reads {bound : ℕ} (hbound : bound ≤ MAX_SIZE) (hlen : values.length ≤ bound)
    (h : ∀ a ∈ values, Reads item (write a) a) :
      Reads (get_list command bound detail item) (put_list write values) values := by
  apply Reads.bind (lift_reads (read_compact_size_inverts.reads (hlen.trans hbound)) command)
  rw [if_neg (Nat.not_lt.mpr hlen)]
  exact Reads.repeated h

theorem list_fails {bound : ℕ} (hbound : bound ≤ MAX_SIZE) (hlen : values.length ≤ bound)
    (h : ∀ a ∈ values, Reads item (write a) a ∨ Fails item (write a)) (hbad : ∃ a ∈ values, Fails item (write a)) :
    Fails (get_list command bound detail item) (put_list write values) := by
  apply Reads.bind_fails (lift_reads (read_compact_size_inverts.reads (hlen.trans hbound)) command)
  rw [if_neg (Nat.not_lt.mpr hlen)]
  exact Fails.repeated h hbad

theorem u8_reads (byte : UInt8) (command : String) : Reads (lift command read_u8) [byte] byte :=
  lift_reads (read_u8_inverts.reads trivial) command

theorem hash_reads (hash : Hash256) (command : String) : Reads (lift command read_hash) hash.to_bytes hash :=
  lift_reads (read_hash_inverts.reads trivial) command

theorem bytes_reads (bytes : List UInt8) (command : String) :
    Reads (lift command (read_bytes bytes.length)) bytes bytes :=
  lift_reads ((read_bytes_inverts bytes.length).reads rfl) command

theorem var_bytes_reads (h : bytes.length ≤ MAX_SIZE) (command : String) :
    Reads (lift command read_var_bytes) (write_var_bytes bytes) bytes :=
  lift_reads (read_var_bytes_inverts.reads h) command

theorem w32_reads (word : BitVec 32) (command : String) :
    Reads (lift command (read_word 32)) (write_word word) word :=
  lift_reads (read_word_reads (by norm_num) word) command

theorem w64_reads (word : BitVec 64) (command : String) :
    Reads (lift command (read_word 64)) (write_word word) word :=
  lift_reads (read_word_reads (by norm_num) word) command

theorem bool_reads (b : Bool) (command : String) : Reads (lift command read_bool) (put_bool b) b := by
  have h := (read_u8_inverts.reads (a := if b then 1 else 0) trivial).map fun byte => byte != 0
  apply lift_reads
  cases b <;> exact h

theorem vector_reads {n : ℕ} (bytes : Vector UInt8 n) (command : String) :
    Reads (lift command (read_vector n)) bytes.toList bytes := by
  have hlen : bytes.toList.length = n := Vector.length_toList
  have h := ((read_bytes_inverts n).reads hlen).map (to_array n)
  rw [to_array_toList] at h
  exact lift_reads h command

theorem port_reads (port : BitVec 16) (command : String) : Reads (lift command read_port) (put_port port) port := by
  have hlen : (put_port port).length = 2 := by simp [put_port]
  have h := ((read_bytes_inverts 2).reads hlen).map fun bytes => BitVec.ofNat 16 (value bytes.reverse)
  have hvalue : BitVec.ofNat 16 (value (put_port port).reverse) = port := by
    rw [put_port, List.reverse_reverse, value_le (by simpa using port.isLt), BitVec.ofNat_toNat, BitVec.setWidth_eq]
  rw [hvalue] at h
  exact lift_reads h command

theorem net_addr_reads (addr : NetAddr) (command : String) :
    Reads (get_net_addr command) (put_net_addr addr) addr := by
  unfold get_net_addr put_net_addr
  rw [List.append_assoc]
  exact (w64_reads _ _).bind ((vector_reads _ _).bind ((port_reads _ _).map _))

theorem addr_entry_reads (e : AddrEntry) (command : String) : Reads (get_addr_entry command) (put_addr_entry e) e :=
  (w32_reads _ _).bind ((net_addr_reads _ _).map _)

def AddrV2Entry.Narrow (e : AddrV2Entry) : Prop := e.services.toNat ≤ MAX_SIZE

theorem addr_v2_entry_reads (hlen : e.addr.length ≤ 255) (h : e.Narrow) (command : String) :
    Reads (get_addr_v2_entry command) (put_addr_v2_entry e) e := by
  have hcount : (UInt8.ofNat (min e.addr.length 255)).toNat = e.addr.length := by
    rw [Nat.min_eq_left hlen, UInt8.toNat_ofNat']
    omega
  have haddr := bytes_reads e.addr command
  rw [← hcount] at haddr
  unfold get_addr_v2_entry put_addr_v2_entry
  simp only [List.append_assoc]
  exact (w32_reads _ _).bind ((lift_reads (read_compact_size_inverts.reads h) _).bind ((u8_reads _ _).bind
    ((u8_reads _ _).bind (haddr.bind ((port_reads _ _).map_eq (by rw [BitVec.ofNat_toNat, BitVec.setWidth_eq]))))))

theorem compact_size_fails {n : ℕ} (h : MAX_SIZE < n) (hn : n < 2 ^ 64) :
    Fails read_compact_size (write_compact_size n) := by
  intro rest
  have hprefix (head : UInt8) (bytes : List UInt8) (hp : read_prefixed head bytes = .ok (n, rest)) :
      read_compact_size (head :: bytes) = .error (.CompactSizeTooLarge n) := by
    have hu8 : read_u8 (head :: bytes) = .ok (head, bytes) := read_u8_inverts.read_write (a := head) bytes trivial
    rw [read_compact_size, bind_ok hu8, bind_ok hp, if_pos h]
    rfl
  simp only [MAX_SIZE] at h
  refine ⟨.CompactSizeTooLarge n, ?_⟩
  unfold write_compact_size
  rw [if_neg (by omega), if_neg (by omega)]
  split
  · exact hprefix 254 _ ((read_payload_inverts 4 0x10000).read_write rest ⟨by omega, by norm_num; omega⟩)
  · exact hprefix 255 _ ((read_payload_inverts 8 0x100000000).read_write rest ⟨by omega, by norm_num; omega⟩)

theorem addr_v2_entry_fails (h : ¬ e.Narrow) (command : String) :
    Fails (get_addr_v2_entry command) (put_addr_v2_entry e) := by
  unfold get_addr_v2_entry put_addr_v2_entry
  simp only [List.append_assoc]
  exact (w32_reads _ _).bind_fails
    ((lift_fails (compact_size_fails (Nat.not_le.mp h) e.services.isLt) command).bind _ _)

def Named : InvType → Prop
  | .Other v => v < 2 ^ 32 ∧ v ∉ [1, 2, 3, 4, 5, MSG_WITNESS_BLOCK, MSG_WITNESS_FLAG ||| 1]
  | _ => True

theorem inv_vector_reads {inv : InvVector} (h : Named inv.inv_type) (command : String) :
    Reads (get_inv_vector command) (put_inv_vector inv) inv := by
  have htype : inv_type_of_u32 (inv_type_to_u32 inv.inv_type) = inv.inv_type := by
    cases ht : inv.inv_type with
    | Other v =>
      rw [ht] at h
      simp only [Named, List.mem_cons, List.not_mem_nil, or_false, not_or] at h
      obtain ⟨-, h₁, h₂, h₃, h₄, h₅, h₆, h₇⟩ := h
      rw [inv_type_to_u32, inv_type_of_u32, if_neg h₁, if_neg h₂, if_neg h₃, if_neg h₄, if_neg h₅, if_neg h₆,
        if_neg h₇]
    | _ => rfl
  have hlt : inv_type_to_u32 inv.inv_type < 2 ^ 32 := by
    cases ht : inv.inv_type with
    | Other v =>
      rw [ht] at h
      exact h.1
    | _ => decide
  exact (lift_reads (read_u32_le_inverts.reads hlt) command).bind ((hash_reads _ _).map_eq (by rw [htype]))

theorem prefilled_tx_reads {p : PrefilledTx} (h : p.tx.CodecValid) (command : String) :
    Reads (get_prefilled_tx command) (write_compact_size p.index_diff.toNat ++ p.tx.encode) p := by
  have hlt := p.index_diff.isLt
  have hsize : p.index_diff.toNat ≤ MAX_SIZE := hlt.le.trans (by decide)
  apply Reads.bind (lift_reads (read_compact_size_inverts.reads hsize) command)
  rw [if_neg (by omega)]
  exact (lift_reads (Transaction.read_reads h) command).map_eq (by rw [BitVec.ofNat_toNat, BitVec.setWidth_eq])

theorem u32_diff_reads {i : BitVec 32} (h : i.toNat < 65536) (command : String) :
    Reads (get_u32_diff command) (le 2 (if i.toNat ≤ 0xffff then i.toNat else 0xffff)) i := by
  rw [if_pos (by omega)]
  exact (lift_reads ((read_le_inverts 2).reads (by norm_num; exact h)) command).map_eq
    (by rw [BitVec.ofNat_toNat, BitVec.setWidth_eq])

theorem header_reads {header : BlockHeader} (h : header.Typed) (command : String) :
    Reads (get_header command) (header.encode ++ [0]) header :=
  (lift_reads (BlockHeader.read_reads h) command).bind ((u8_reads 0 command).bind (Reads.pure header))

namespace Message

def known : List String :=
  ["version", "verack", "ping", "pong", "sendheaders", "wtxidrelay", "sendaddrv2", "feature", "sendutxproof",
    "sendadvice",
    "getaddr", "mempool", "feefilter", "addr", "addrv2", "inv", "getdata", "notfound", "getheaders", "getcfilters",
    "getcfheaders", "getcfcheckpt", "cfilter", "cfheaders", "cfcheckpt", "headers", "block", "tx", "reject",
      "sendcmpct",
    "cmpctblock", "getblocktxn", "blocktxn", "sendrecon", "reqrecon", "sketch", "reconcildiff", "reqbisec",
      "utxproof",
    "getadvice", "advice"]

def Representable : Message → Prop
  | Version v => (as_bytes v.user_agent).length ≤ MAX_SIZE
  | Feature id data => 4 ≤ (as_bytes id).length ∧ (as_bytes id).length ≤ 80 ∧ data.length ≤ 512
  | Addr entries => entries.length ≤ MAX_ADDR_TO_SEND
  | AddrV2 entries => entries.length ≤ MAX_ADDR_TO_SEND ∧ ∀ e ∈ entries, e.addr.length ≤ 255
  | Inv v | GetData v | NotFound v => v.length ≤ MAX_INV_SZ ∧ ∀ inv ∈ v, Named inv.inv_type
  | GetHeaders gh => gh.locator.length ≤ MAX_LOCATOR
  | Headers headers => headers.length ≤ MAX_HEADERS_RESULTS ∧ ∀ header ∈ headers, header.Typed
  | Block block => block.CodecValid
  | Tx tx => tx.CodecValid
  | CFilter f => f.filter.length ≤ MAX_SIZE
  | CFHeaders h => h.filter_hashes.length ≤ MAX_HEADERS_RESULTS
  | CFCheckpt c => c.filter_headers.length ≤ MAX_HEADERS_RESULTS
  | Reject r => (as_bytes r.message).length ≤ MAX_SIZE ∧ (as_bytes r.reason).length ≤ MAX_SIZE
  | CmpctBlock c => c.header.Typed ∧ c.shortids.length ≤ MAX_CMPCT_TX_COUNT ∧
    c.prefilled.length ≤ MAX_CMPCT_TX_COUNT ∧
      ∀ p ∈ c.prefilled, p.tx.CodecValid
  | GetBlockTxn r => r.indexes.length ≤ MAX_CMPCT_TX_COUNT ∧ ∀ i ∈ r.indexes, i.toNat < 65536
  | BlockTxn b => b.txs.length ≤ MAX_CMPCT_TX_COUNT ∧ ∀ tx ∈ b.txs, tx.CodecValid
  | ReqRecon sk | Sketch sk => sk.length ≤ MAX_SKETCH_BYTES
  | ReconcilDiff _ short_ids => short_ids.length ≤ MAX_RECONCIL_IDS
  | UtxoProof _ bundle => bundle.length ≤ MAX_SIZE
  | Advice _ data => data.length ≤ MAX_SIZE
  | Unknown command _ => command ∉ known
  | _ => True

def NarrowServices : Message → Prop
  | AddrV2 entries => ∀ e ∈ entries, e.Narrow
  | _ => True

theorem reader_encode {m : Message} (h : m.Representable) (hs : m.NarrowServices) (hm : m.command_name ∈ known) :
    ∃ read, reader m.command_name m.encode.length = some read ∧ read m.encode = .ok (m, []) := by
  cases m with
  | Version v =>
    refine ⟨_, rfl, Reads.whole ?_⟩
    simp only [encode, List.append_assoc]
    refine (w32_reads _ _).bind ((w64_reads _ _).bind ((w64_reads _ _).bind ((net_addr_reads _ _).bind
      ((net_addr_reads _ _).bind ((w64_reads _ _).bind ((var_bytes_reads h _).bind ((w32_reads _ _).bind ?_)))))))
    have hrelay : Reads (do
        let relay ← lift "version" read_bool
        pure (Message.Version ⟨v.version, v.services, v.timestamp, v.addr_recv, v.addr_from, v.nonce,
          from_utf8_lossy (as_bytes v.user_agent), v.start_height, relay⟩)) (put_bool v.relay) (.Version v) :=
      (bool_reads _ _).map_eq (by rw [from_utf8_lossy_as_bytes])
    exact fun rest => hrelay rest
  | Ping nonce => exact ⟨_, rfl, ((w64_reads _ _).map _).whole⟩
  | Pong nonce => exact ⟨_, rfl, ((w64_reads _ _).map _).whole⟩
  | Feature id data =>
    obtain ⟨hlow, hhigh, hdata⟩ := h
    refine ⟨_, rfl, Reads.whole ?_⟩
    simp only [encode, write_var_bytes, List.append_assoc]
    refine (lift_reads (read_compact_size_inverts.reads (hhigh.trans (by decide))) _).bind ?_
    rw [if_neg (by omega)]
    refine (bytes_reads _ _).bind ((lift_reads (read_compact_size_inverts.reads (hdata.trans (by decide))) _).bind ?_)
    rw [if_neg (by omega)]
    exact (bytes_reads _ _).map_eq (by rw [from_utf8_lossy_as_bytes])
  | FeeFilter rate => exact ⟨_, rfl, ((w64_reads _ _).map _).whole⟩
  | Addr entries =>
    exact ⟨_, rfl, ((list_reads _ _ (by decide) h fun e _ => addr_entry_reads e _).map _).whole⟩
  | AddrV2 entries =>
    exact ⟨_, rfl, ((list_reads _ _ (by decide) h.1 fun e he =>
      addr_v2_entry_reads (h.2 e he) (hs e he) _).map _).whole⟩
  | Inv v => exact ⟨_, rfl,
    ((list_reads _ _ (by decide) h.1 fun inv hi => inv_vector_reads (h.2 inv hi) _).map _).whole⟩
  | GetData v =>
    exact ⟨_, rfl, ((list_reads _ _ (by decide) h.1 fun inv hi => inv_vector_reads (h.2 inv hi) _).map _).whole⟩
  | NotFound v =>
    exact ⟨_, rfl, ((list_reads _ _ (by decide) h.1 fun inv hi => inv_vector_reads (h.2 inv hi) _).map _).whole⟩
  | GetHeaders gh =>
    refine ⟨_, rfl, Reads.whole ?_⟩
    simp only [encode, List.append_assoc]
    exact (w32_reads _ _).bind
      ((list_reads _ _ (by decide) h fun hash _ => hash_reads hash _).bind ((hash_reads _ _).map _))
  | Headers headers =>
    exact ⟨_, rfl, ((list_reads _ _ (by decide) h.1 fun header hh => header_reads (h.2 header hh) _).map _).whole⟩
  | Block block => exact ⟨_, rfl, ((lift_reads (Block.read_reads h) _).map _).whole⟩
  | Tx tx => exact ⟨_, rfl, ((lift_reads (Transaction.read_reads h) _).map _).whole⟩
  | GetCFilters r =>
    refine ⟨_, rfl, Reads.whole ?_⟩
    simp only [encode, List.append_assoc]
    exact (u8_reads _ _).bind ((w32_reads _ _).bind ((hash_reads _ _).map _))
  | GetCFHeaders r =>
    refine ⟨_, rfl, Reads.whole ?_⟩
    simp only [encode, List.append_assoc]
    exact (u8_reads _ _).bind ((w32_reads _ _).bind ((hash_reads _ _).map _))
  | CFilter f =>
    refine ⟨_, rfl, Reads.whole ?_⟩
    simp only [encode, List.append_assoc]
    exact (u8_reads _ _).bind ((hash_reads _ _).bind ((var_bytes_reads h _).map _))
  | CFHeaders c =>
    refine ⟨_, rfl, Reads.whole ?_⟩
    simp only [encode, List.append_assoc]
    exact (u8_reads _ _).bind ((hash_reads _ _).bind ((hash_reads _ _).bind
      ((list_reads _ _ (by decide) h fun hash _ => hash_reads hash _).map _)))
  | GetCFCheckpt r => exact ⟨_, rfl, ((u8_reads _ _).bind ((hash_reads _ _).map _)).whole⟩
  | CFCheckpt c =>
    refine ⟨_, rfl, Reads.whole ?_⟩
    simp only [encode, List.append_assoc]
    exact (u8_reads _ _).bind
      ((hash_reads _ _).bind ((list_reads _ _ (by decide) h fun hash _ => hash_reads hash _).map _))
  | Reject r =>
    refine ⟨_, rfl, ?_⟩
    simp only [encode, List.append_assoc]
    rw [bind_ok (var_bytes_reads h.1 _ _), bind_ok (u8_reads _ _ _), bind_ok (var_bytes_reads h.2 _ _)]
    have hdata : Reads (do
        let data ← lift "reject" (read_bytes r.data.length)
        pure (Message.Reject ⟨from_utf8_lossy (as_bytes r.message), r.code, from_utf8_lossy (as_bytes r.reason),
          data⟩))
        r.data (.Reject r) :=
      (bytes_reads _ _).map_eq (by rw [from_utf8_lossy_as_bytes, from_utf8_lossy_as_bytes])
    exact hdata.whole
  | SendCmpct announce version =>
    have hlen : (encode (.SendCmpct announce version)).length = 9 := by simp [encode, put_bool, write_word]
    rw [hlen]
    exact ⟨_, rfl, ((bool_reads _ _).bind ((w64_reads _ _).map _)).whole⟩
  | CmpctBlock c =>
    refine ⟨_, rfl, Reads.whole ?_⟩
    simp only [encode, List.append_assoc]
    exact (lift_reads (BlockHeader.read_reads h.1) _).bind ((w64_reads _ _).bind
      ((list_reads _ _ (by decide) h.2.1 fun id _ => vector_reads id _).bind
        ((list_reads _ _ (by decide) h.2.2.1 fun p hp => prefilled_tx_reads (h.2.2.2 p hp) _).map _)))
  | GetBlockTxn r =>
    exact ⟨_, rfl, ((hash_reads _ _).bind
      ((list_reads _ _ (by decide) h.1 fun i hi => u32_diff_reads (h.2 i hi) _).map _)).whole⟩
  | BlockTxn b =>
    exact ⟨_, rfl, ((hash_reads _ _).bind
      ((list_reads _ _ (by decide) h.1 fun tx htx =>
        lift_reads (Transaction.read_reads (h.2 tx htx)) _).map _)).whole⟩
  | SendRecon r =>
    refine ⟨_, rfl, Reads.whole ?_⟩
    simp only [encode, List.append_assoc]
    exact (bool_reads _ _).bind ((bool_reads _ _).bind ((w32_reads _ _).bind ((w64_reads _ _).map _)))
  | ReqRecon sk =>
    refine ⟨_, rfl, Reads.whole fun rest => ?_⟩
    rw [encode, bind_ok (var_bytes_reads (Nat.le_trans h (by decide)) _ rest), if_neg (Nat.not_lt.mpr h)]
    rfl
  | Sketch sk =>
    refine ⟨_, rfl, Reads.whole fun rest => ?_⟩
    rw [encode, bind_ok (var_bytes_reads (Nat.le_trans h (by decide)) _ rest), if_neg (Nat.not_lt.mpr h)]
    rfl
  | ReconcilDiff ask_parents short_ids =>
    exact ⟨_, rfl, ((w32_reads _ _).bind ((list_reads _ _ (by decide) h fun id _ => w32_reads id _).map _)).whole⟩
  | UtxoProof block_hash bundle => exact ⟨_, rfl, ((hash_reads _ _).bind ((var_bytes_reads h _).map _)).whole⟩
  | GetAdvice block_hash => exact ⟨_, rfl, ((hash_reads _ _).map _).whole⟩
  | Advice block_hash data => exact ⟨_, rfl, ((hash_reads _ _).bind ((var_bytes_reads h _).map _)).whole⟩
  | Unknown command payload => exact absurd hm h
  | _ => exact ⟨_, rfl, rfl⟩

theorem reader_none {name : String} (h : name ∉ known) (len : ℕ) : reader name len = none := by
  unfold reader
  split <;> first | rfl | exact absurd (by decide) h

theorem name_known (m : Message) : m.command_name ∈ known ∨ ∃ command payload, m = .Unknown command payload := by
  cases m with
  | Unknown command payload => exact .inr ⟨command, payload, rfl⟩
  | _ => exact .inl (by simp [command_name, known])

theorem reader_wide {entries : List AddrV2Entry} (h : Representable (.AddrV2 entries))
    (hs : ¬ NarrowServices (.AddrV2 entries)) (len : ℕ) :
    ∃ read e, reader "addrv2" len = some read ∧ read (encode (.AddrV2 entries)) = .error e := by
  have hbad : ∃ e ∈ entries, ¬ e.Narrow := by simpa [NarrowServices] using hs
  obtain ⟨bad, hmem, hwide⟩ := hbad
  have hlist : Fails (get_list "addrv2" MAX_ADDR_TO_SEND
    (fun count => s!"addrv2 count {count} exceeds MAX_ADDR_TO_SEND")
      (get_addr_v2_entry "addrv2")) (put_list put_addr_v2_entry entries) := by
    refine list_fails _ _ (by decide) h.1 (fun e he => ?_) ⟨bad, hmem, addr_v2_entry_fails hwide _⟩
    by_cases hn : e.Narrow
    · exact .inl (addr_v2_entry_reads (h.2 e he) hn _)
    · exact .inr (addr_v2_entry_fails hn _)
  obtain ⟨e, he⟩ := hlist.bind (fun entries => pure (Message.AddrV2 entries)) [] []
  rw [List.append_nil, List.append_nil] at he
  exact ⟨_, e, rfl, he⟩

theorem decode_eq_ok {command : Command} {payload : List UInt8} {m : Message} {read : PayloadReader Message}
    (hread : reader command.name payload.length = some read) :
    decode command payload = .ok m ↔ read payload = .ok (m, []) := by
  rw [decode, hread]
  dsimp only
  split <;> simp_all

/-- A message decodes to itself exactly when its services fit, and no payload is half read. -/
theorem message_codec (command : Command) :
    (∀ m : Message, m.Representable → m.command = some command →
      (decode command m.encode = .ok m ↔ m.NarrowServices)) ∧
    ∀ (payload : List UInt8) (m : Message), decode command payload = .ok m →
      (reader command.name payload.length = none ∧ m = .Unknown command.name payload) ∨
        ∃ read, reader command.name payload.length = some read ∧ read payload = .ok (m, []) := by
  constructor
  · intro m h hc
    have hname := (Command.name_of_new hc).1
    rcases m.name_known with hm | ⟨name, payload, rfl⟩
    · by_cases hs : m.NarrowServices
      · obtain ⟨read, hr, hread⟩ := reader_encode h hs hm
        exact iff_of_true ((decode_eq_ok (by rw [hname, hr])).mpr hread) hs
      refine iff_of_false (fun hd => ?_) hs
      cases m with
      | AddrV2 entries =>
        obtain ⟨read, e, hr, hread⟩ := reader_wide h hs (encode (.AddrV2 entries)).length
        have hr' : reader command.name (encode (.AddrV2 entries)).length = some read := by
          rw [hname]
          exact hr
        rw [decode_eq_ok hr', hread] at hd
        cases hd
      | _ => exact hs trivial
    · have hnone : reader command.name payload.length = none := by rw [hname]; exact reader_none h _
      refine iff_of_true ?_ trivial
      rw [decode, encode, hnone, hname]
      rfl
  · intro payload m hd
    cases hr : reader command.name payload.length with
    | none =>
      rw [decode, hr] at hd
      exact .inl ⟨rfl, (Except.ok.inj hd).symm⟩
    | some read => exact .inr ⟨read, rfl, (decode_eq_ok hr).mp hd⟩

def sample_wide : Message := .AddrV2 [⟨0, 0x4000000, 1, [127, 0, 0, 1], 8333⟩]

def sample_narrow : Message := .AddrV2 [⟨0, 0x409, 1, [127, 0, 0, 1], 8333⟩]

def sample_command : Command := ⟨to_array 12 (as_bytes "addrv2" ++ List.replicate 6 0)⟩

theorem wide_services_refused : ¬ ∀ (m : Message) (command : Command), m.Representable → m.command = some command →
    decode command m.encode = .ok m := by
  intro h
  have hd := h sample_wide sample_command ⟨by decide, by decide⟩ (by decide)
  have he : (decode sample_command sample_wide.encode).isOk = false := by decide +kernel
  rw [hd] at he
  cases he

theorem message_codec_narrow : decode sample_command sample_narrow.encode = .ok sample_narrow :=
  ((message_codec sample_command).1 sample_narrow ⟨by decide, by decide⟩ (by decide)).mpr
    (by simp [sample_narrow, NarrowServices, AddrV2Entry.Narrow, MAX_SIZE])

end Message

end AvilaNode.Wire
