import AvilaNode.WireMessages
import AvilaNode.TableRows
import Mathlib.Data.Finset.Max
import Mathlib.Data.Prod.Lex

/-! The address book: its entries, the four maps kept beside them, and who may push out what. -/

namespace AvilaNode.Wire

open ByteReader ByteStrings Decoder FrameCodec Layers

def ADDR_TABLE_CAP : ℕ := 4096

def PEERS_MAGIC : List UInt8 := [0x41, 0x50, 0x45, 0x45, 0x52, 0x53]

def PEERS_VERSION : ℕ := 1

structure AddrInfo where
  addr : NetAddr
  last_seen : ℕ
  tried : Bool
  attempts : ℕ
deriving DecidableEq

abbrev AddrKey := ℕ ×ₗ ℕ

def key_of (addr : NetAddr) : AddrKey := toLex (value addr.ip.toList.reverse, addr.port.toNat)

inductive Network where
  | Ipv4
  | Ipv6
  | Onion
  | I2p
  | Cjdns
  | Unroutable
deriving DecidableEq

def private_v4 (v : List UInt8) : Bool :=
  let at_ (i : ℕ) := (v.getD i 0).toNat
  at_ 0 = 10 || (at_ 0 = 172 && 16 ≤ at_ 1 && at_ 1 < 32) || (at_ 0 = 192 && at_ 1 = 168) ||
    (at_ 0 = 198 && (at_ 1 = 18 || at_ 1 = 19)) || (at_ 0 = 169 && at_ 1 = 254) ||
    (at_ 0 = 100 && 64 ≤ at_ 1 && at_ 1 ≤ 127) || (at_ 0 = 192 && at_ 1 = 0 && at_ 2 = 2) ||
    (at_ 0 = 198 && at_ 1 = 51 && at_ 2 = 100) || (at_ 0 = 203 && at_ 1 = 0 && at_ 2 = 113) ||
    at_ 0 = 127 || at_ 0 = 0

def network_of (addr : NetAddr) : Network :=
  let a := addr.ip.toList
  if a.take 12 = List.replicate 10 0 ++ [0xff, 0xff] then
    let v := a.drop 12
    if v = List.replicate 4 0 ∨ v = List.replicate 4 255 then .Unroutable
    else if private_v4 v then .Unroutable else .Ipv4
  else if a = List.replicate 16 0 ∨ a.take 4 = [0x20, 0x01, 0x0d, 0xb8] then .Unroutable
  else if a.take 8 = [0xfe, 0x80, 0, 0, 0, 0, 0, 0] ∨ a.getD 0 0 &&& 0xfe = 0xfc ∨
      (a.take 3 = [0x20, 0x01, 0x00] ∧ (a.getD 3 0 &&& 0xf0 = 0x10 ∨ a.getD 3 0 &&& 0xf0 = 0x20)) ∨
      a = List.replicate 15 0 ++ [1] then .Unroutable
  else if a.take 2 = [0x20, 0x02] ∨ a.take 4 = [0x20, 0x01, 0x00, 0x00] ∨
      a.take 12 = [0x00, 0x64, 0xff, 0x9b, 0, 0, 0, 0, 0, 0, 0, 0] then .Ipv4
  else .Ipv6

abbrev Row := ℕ ×ₗ ℕ ×ₗ AddrKey

def row (last_seen seq : ℕ) (key : AddrKey) : Row := toLex (last_seen, toLex (seq, key))

structure AddrBook where
  table : Table AddrKey AddrInfo
  seq : Table AddrKey ℕ
  order : Finset Row
  source_of : Table AddrKey ℕ
  by_source : Table ℕ (Finset (ℕ ×ₗ AddrKey))
  next_seq : ℕ
  cap : ℕ

def source_quota (cap : ℕ) : ℕ := max (cap / 64) 8

def first {α : Type} [LinearOrder α] (s : Finset α) : Option α := if h : s.Nonempty then some (s.min' h) else none

namespace AddrBook

def with_cap (cap : ℕ) : AddrBook := ⟨∅, ∅, ∅, ∅, ∅, 0, cap⟩

def len (book : AddrBook) : ℕ := book.table.keys.length

def owned (book : AddrBook) (source : ℕ) : Finset (ℕ ×ₗ AddrKey) := (book.by_source.lookup source).getD ∅

def disown (book : AddrBook) (key : AddrKey) : Table ℕ (Finset (ℕ ×ₗ AddrKey)) :=
  match book.source_of.lookup key with
  | none => book.by_source
  | some src =>
    match book.by_source.lookup src with
    | none => book.by_source
    | some owned =>
      let left := owned.filter fun entry => (ofLex entry).2 ≠ key
      if left = ∅ then book.by_source.erase src else book.by_source.insert src left

def remove_key (book : AddrBook) (key : AddrKey) : AddrBook :=
  match book.table.lookup key with
  | none => book
  | some e =>
    { book with
      table := book.table.erase key
      seq := book.seq.erase key
      order := match book.seq.lookup key with
        | some seq => book.order.erase (row e.last_seen seq key)
        | none => book.order
      source_of := book.source_of.erase key
      by_source := book.disown key }

def own_oldest (book : AddrBook) (source : Option ℕ) : Option AddrKey :=
  match source with
  | none => none
  | some src =>
    match book.by_source.lookup src with
    | none => none
    | some owned => if source_quota book.cap ≤ owned.card then (first owned).map fun entry =>
      (ofLex entry).2 else none

def evict_for_insert (book : AddrBook) (source : Option ℕ) : AddrBook :=
  match book.own_oldest source with
  | some key => book.remove_key key
  | none =>
    match first book.order with
    | some victim => book.remove_key (ofLex (ofLex victim).2).2
    | none => book

def insert_entry (book : AddrBook) (key : AddrKey) (info : AddrInfo) : AddrBook :=
  { book with
    seq := book.seq.insert key book.next_seq
    next_seq := book.next_seq + 1
    order := insert (row info.last_seen book.next_seq key) book.order
    table := book.table.insert key info }

def charge (book : AddrBook) (key : AddrKey) (seq source : ℕ) : AddrBook :=
  { book with
    source_of := book.source_of.insert key source
    by_source := book.by_source.insert source (insert (toLex (seq, key)) (book.owned source)) }

def refresh (book : AddrBook) (key : AddrKey) (e : AddrInfo) (addr : NetAddr) (last_seen : ℕ) : AddrBook :=
  let seq := (book.seq.lookup key).getD 0
  { book with
    order :=
      if last_seen ≠ e.last_seen then
        insert (row last_seen seq key) (book.order.erase (row e.last_seen seq key))
      else book.order
    table := book.table.insert key
      { e with last_seen, addr := { e.addr with services := e.addr.services ||| addr.services } } }

def add (book : AddrBook) (addr : NetAddr) (seen now : ℕ) : Bool × AddrBook :=
  if network_of addr = .Unroutable then (false, book)
  else match book.table.lookup (key_of addr) with
    | some e => (false, book.refresh (key_of addr) e addr (max (min seen now) e.last_seen))
    | none =>
      let book := if book.cap ≤ book.len then book.evict_for_insert none else book
      (true, book.insert_entry (key_of addr) ⟨addr, min seen now, false, 0⟩)

def add_from (book : AddrBook) (addr : NetAddr) (seen now source : ℕ) : Bool × AddrBook :=
  if network_of addr = .Unroutable then (false, book)
  else if (book.table.lookup (key_of addr)).isSome then book.add addr seen now
  else
    let book := if book.cap ≤ book.len ∨ source_quota book.cap ≤ (book.owned source).card then
      book.evict_for_insert (some source) else book
    (true, (book.insert_entry (key_of addr) ⟨addr, min seen now, false, 0⟩).charge (key_of addr) book.next_seq source)

def mark_attempt (book : AddrBook) (addr : NetAddr) : AddrBook :=
  match book.table.lookup (key_of addr) with
  | none => book
  | some e => { book with table := book.table.insert (key_of addr) { e with attempts := min (e.attempts + 1) 255 } }

def mark_tried (book : AddrBook) (addr : NetAddr) : AddrBook :=
  match book.table.lookup (key_of addr) with
  | none => book
  | some e => { book with table := book.table.insert (key_of addr) { e with tried := true, attempts := 0 } }

def forget (book : AddrBook) (addr : NetAddr) : AddrBook := book.remove_key (key_of addr)

def restore (book : AddrBook) (info : AddrInfo) (now : ℕ) : AddrBook :=
  if network_of info.addr ≠ .Unroutable ∧ (book.table.lookup (key_of info.addr)).isNone then
    book.insert_entry (key_of info.addr) { info with last_seen := min info.last_seen now }
  else book

end AddrBook

inductive PeersFile where
  | missing
  | unreadable
  | bytes (raw : List UInt8)

inductive PeersError where
  | Io
  | InvalidData
deriving DecidableEq

def read_head [Platform] (raw : List UInt8) : Option (ℕ × List UInt8) :=
  if raw.length < 6 + 32 + 4 ∨ raw.take 6 ≠ PEERS_MAGIC then none
  else if (Platform.sha256d (raw.drop 38)).to_bytes ≠ (raw.drop 6).take 32 then none
  else match read_u32_le (raw.drop 38) with
    | .error _ => none
    | .ok (version, body) =>
      if version ≠ PEERS_VERSION then none
      else match read_compact_size body with
        | .error _ => none
        | .ok (count, body) => if ADDR_TABLE_CAP < count then none else some (count, body)

def read_info : Decoder AddrInfo := do
  let last_seen ← read_u32_le
  let tried ← read_u8
  let attempts ← read_u8
  let services ← read_u64_le
  let ip ← read_bytes 16
  let port ← read_u16_le
  pure ⟨⟨BitVec.ofNat 64 services, to_array 16 ip, BitVec.ofNat 16 port⟩, last_seen, tried ≠ 0, attempts.toNat⟩

namespace AddrBook

def load_entries (now : ℕ) : ℕ → List UInt8 → AddrBook → Option (List UInt8) × AddrBook
  | 0, body, book => (some body, book)
  | count + 1, body, book =>
    match read_info body with
    | .error _ => (none, book)
    | .ok (info, body) => load_entries now count body (book.restore info now)

def load [Platform] (book : AddrBook) (file : PeersFile) (now : ℕ) : Except PeersError ℕ × AddrBook :=
  match file with
  | .missing => (.ok 0, book)
  | .unreadable => (.error .Io, book)
  | .bytes raw =>
    match read_head raw with
    | none => (.error .InvalidData, book)
    | some (count, body) =>
      match load_entries now count body (with_cap book.cap) with
      | (some [], loaded) => (.ok loaded.len, loaded)
      | (_, loaded) => (.error .InvalidData, loaded)

end AddrBook

inductive AddrOp where
  | add (addr : NetAddr) (seen now : ℕ)
  | add_from (addr : NetAddr) (seen now source : ℕ)
  | mark_attempt (addr : NetAddr)
  | mark_tried (addr : NetAddr)
  | forget (addr : NetAddr)
  | load (file : PeersFile) (now : ℕ)

def AddrBook.step [Platform] (book : AddrBook) : AddrOp → AddrBook
  | .add addr seen now => (book.add addr seen now).2
  | .add_from addr seen now source => (book.add_from addr seen now source).2
  | .mark_attempt addr => book.mark_attempt addr
  | .mark_tried addr => book.mark_tried addr
  | .forget addr => book.forget addr
  | .load file now => (book.load file now).2

theorem first_mem {α : Type} [LinearOrder α] {s : Finset α} {a : α} (h : first s = some a) : a ∈ s := by
  unfold first at h
  split at h
  · next hs =>
    cases h
    exact s.min'_mem hs
  · cases h

theorem first_none {α : Type} [LinearOrder α] {s : Finset α} (h : first s = none) : s = ∅ := by
  unfold first at h
  split at h
  · cases h
  · next hs => exact Finset.not_nonempty_iff_eq_empty.mp hs

namespace AddrBook

/-- The four maps say of each entry what the table has, and of nothing else. -/
structure Consistent (book : AddrBook) : Prop where
  keyed : ∀ {key e}, book.table.lookup key = some e → key_of e.addr = key
  seqs : ∀ key, (book.seq.lookup key).isSome = (book.table.lookup key).isSome
  fresh : ∀ {key n}, book.seq.lookup key = some n → n < book.next_seq
  apart : ∀ {key key' n}, book.seq.lookup key = some n → book.seq.lookup key' = some n → key = key'
  order : ∀ last_seen n key, row last_seen n key ∈ book.order ↔
    (book.table.lookup key).map AddrInfo.last_seen = some last_seen ∧ book.seq.lookup key = some n
  sources : ∀ {key source}, book.source_of.lookup key = some source → (book.table.lookup key).isSome
  by_source : ∀ source n key, toLex (n, key) ∈ book.owned source ↔
    book.source_of.lookup key = some source ∧ book.seq.lookup key = some n
  kept : ∀ source, book.by_source.lookup source ≠ some ∅

variable {book : AddrBook} {key k : AddrKey} {e : AddrInfo} {n source : ℕ}

theorem Consistent.with_cap (cap : ℕ) : Consistent (with_cap cap) := by
  constructor <;> simp [AddrBook.with_cap, owned]

theorem Consistent.seq_of (h : Consistent book) (he : book.table.lookup key = some e) :
    ∃ n, book.seq.lookup key = some n := by
  rw [← Option.isSome_iff_exists, h.seqs, he]
  rfl

theorem mem_disown : toLex (n, k) ∈ ((book.disown key).lookup source).getD ∅ ↔
    toLex (n, k) ∈ book.owned source ∧ (k = key → book.source_of.lookup key ≠ some source) := by
  unfold disown owned
  grind [lookup_erase_eq, lookup_insert_eq, ofLex_toLex]

theorem kept_disown (h : ∀ source, book.by_source.lookup source ≠ some ∅) (source : ℕ) :
    (book.disown key).lookup source ≠ some ∅ := by
  unfold disown
  grind [lookup_erase_eq, lookup_insert_eq]

theorem Consistent.mem_disown (h : Consistent book) : toLex (n, k) ∈ ((book.disown key).lookup source).getD ∅ ↔
    k ≠ key ∧ toLex (n, k) ∈ book.owned source := by
  rw [AddrBook.mem_disown]
  constructor
  · rintro ⟨hm, hk⟩
    refine ⟨?_, hm⟩
    rintro rfl
    exact hk rfl ((h.by_source _ _ _).mp hm).1
  · rintro ⟨hk, hm⟩
    exact ⟨hm, fun he => absurd he hk⟩

@[simp] theorem row_inj {a b m n : ℕ} {j k : AddrKey} : row a m j = row b n k ↔ a = b ∧ m = n ∧ j = k := by
  simp [row]

theorem Consistent.remove_key (h : Consistent book) (key : AddrKey) : Consistent (book.remove_key key) := by
  unfold AddrBook.remove_key
  split
  · exact h
  next e he =>
  obtain ⟨n, hn⟩ := h.seq_of he
  have hseqs := h.seqs
  have hfresh : ∀ k m, book.seq.lookup k = some m → m < book.next_seq := fun _ _ => h.fresh
  have hby := h.by_source
  rw [hn]
  constructor
  case keyed => grind [lookup_erase_eq, Consistent.keyed]
  case seqs => grind [lookup_erase_eq]
  case fresh => grind [lookup_erase_eq]
  case apart => grind [lookup_erase_eq, Consistent.apart]
  case order =>
    intro last_seen m k
    rw [Finset.mem_erase, ne_eq, row_inj, h.order, lookup_erase_eq, lookup_erase_eq]
    grind
  case sources => grind [lookup_erase_eq, Consistent.sources]
  case by_source =>
    intro source m k
    change toLex (m, k) ∈ ((book.disown key).lookup source).getD ∅ ↔ _
    grind [lookup_erase_eq, Consistent.mem_disown]
  case kept => exact kept_disown h.kept

theorem Consistent.insert_entry (h : Consistent book) (hk : book.table.lookup key = none) {info : AddrInfo}
    (hinfo : key_of info.addr = key) : Consistent (book.insert_entry key info) := by
  have hseqs := h.seqs
  have hfresh : ∀ k m, book.seq.lookup k = some m → m < book.next_seq := fun _ _ => h.fresh
  unfold AddrBook.insert_entry
  constructor
  case keyed => grind [lookup_insert_eq, Consistent.keyed]
  case seqs => grind [lookup_insert_eq]
  case fresh => grind [lookup_insert_eq]
  case apart => grind [lookup_insert_eq, Consistent.apart]
  case order =>
    intro last_seen m k
    rw [Finset.mem_insert, row_inj, h.order, lookup_insert_eq, lookup_insert_eq]
    grind
  case sources => grind [lookup_insert_eq, Consistent.sources]
  case by_source =>
    intro src m k
    change toLex (m, k) ∈ book.owned src ↔ _
    rw [h.by_source]
    grind [lookup_insert_eq, Consistent.sources]
  case kept => exact h.kept

theorem Consistent.charge (h : Consistent book) (hs : book.seq.lookup key = some n)
    (hnone : book.source_of.lookup key = none) (source : ℕ) : Consistent (book.charge key n source) := by
  have hseqs := h.seqs
  have hby := h.by_source
  refine ⟨h.keyed, h.seqs, h.fresh, h.apart, h.order, ?_, ?_, ?_⟩
  · grind [AddrBook.charge, lookup_insert_eq, Consistent.sources]
  · intro src m k
    have howned : (book.charge key n source).owned src =
        if src = source then insert (toLex (n, key)) (book.owned source) else book.owned src := by
      rw [AddrBook.charge, owned, lookup_insert_eq]
      split <;> rfl
    rw [howned, AddrBook.charge, lookup_insert_eq]
    grind [toLex_inj]
  · intro src
    rw [AddrBook.charge, lookup_insert_eq]
    split
    · simp
    · exact h.kept src

variable {e' : AddrInfo}

theorem Consistent.update (h : Consistent book) (he : book.table.lookup key = some e)
    (hk : key_of e'.addr = key_of e.addr) {order : Finset Row}
    (horder : ∀ last_seen m k, row last_seen m k ∈ order ↔
      if k = key then e'.last_seen = last_seen ∧ book.seq.lookup key = some m else row last_seen m k ∈ book.order) :
    Consistent { book with order, table := book.table.insert key e' } := by
  have hseqs := h.seqs
  have hold := h.order
  refine ⟨?_, ?_, h.fresh, h.apart, ?_, ?_, h.by_source, h.kept⟩
  · grind [lookup_insert_eq, Consistent.keyed]
  · grind [lookup_insert_eq]
  · grind [lookup_insert_eq]
  · grind [lookup_insert_eq, Consistent.sources]

theorem Consistent.update_same (h : Consistent book) (he : book.table.lookup key = some e)
    (hk : key_of e'.addr = key_of e.addr) (hl : e'.last_seen = e.last_seen) :
    Consistent { book with table := book.table.insert key e' } := by
  refine h.update he hk fun last_seen m k => ?_
  split
  · next heq =>
    rw [heq, h.order, he, hl]
    simp
  · rfl

theorem Consistent.refresh (h : Consistent book) (he : book.table.lookup key = some e) (addr : NetAddr)
    (last_seen : ℕ) : Consistent (book.refresh key e addr last_seen) := by
  obtain ⟨n, hn⟩ := h.seq_of he
  unfold AddrBook.refresh
  dsimp only
  rw [hn, Option.getD_some]
  by_cases hsame : last_seen = e.last_seen
  · rw [if_neg (not_not.mpr hsame)]
    exact h.update_same he rfl hsame
  rw [if_pos hsame]
  refine h.update he ?_ fun seen m k => ?_
  · rfl
  rw [Finset.mem_insert, Finset.mem_erase, row_inj, h.order]
  split
  · next heq =>
    rw [heq, he, hn]
    grind
  · next hne =>
    rw [ne_eq, row_inj]
    simp [hne]

theorem remove_key_none (he : book.table.lookup key = none) : book.remove_key key = book := by
  rw [AddrBook.remove_key, he]

theorem len_remove_key (he : book.table.lookup key = some e) : (book.remove_key key).len + 1 = book.len := by
  rw [AddrBook.remove_key, he]
  exact length_keys_erase (by rw [he]; rfl)

theorem cap_remove_key : (book.remove_key key).cap = book.cap := by
  unfold AddrBook.remove_key
  split <;> rfl

theorem lookup_remove_key : (book.remove_key key).table.lookup k = if k = key then none else book.table.lookup k := by
  unfold AddrBook.remove_key
  split
  · next he =>
    split
    · next heq => rw [heq, he]
    · rfl
  · exact lookup_erase_eq _ _ _

theorem owned_remove_key : (book.remove_key key).owned source ⊆ book.owned source := by
  unfold AddrBook.remove_key
  split
  · exact Finset.Subset.refl _
  · rintro ⟨n, k⟩ hm
    exact (AddrBook.mem_disown.mp hm).1

theorem Consistent.owned_lt (h : Consistent book) (hs : book.source_of.lookup key = some source) :
    ((book.remove_key key).owned source).card < (book.owned source).card := by
  obtain ⟨e, he⟩ := Option.isSome_iff_exists.mp (h.sources hs)
  obtain ⟨n, hn⟩ := h.seq_of he
  refine Finset.card_lt_card (Finset.ssubset_iff_subset_ne.mpr ⟨owned_remove_key, fun heq => ?_⟩)
  have hm := (h.by_source _ _ _).mpr ⟨hs, hn⟩
  rw [← heq, (h.remove_key key).by_source] at hm
  have := (h.remove_key key).sources hm.1
  rw [lookup_remove_key, if_pos rfl] at this
  cases this

theorem Consistent.evicts (h : Consistent book) (source : Option ℕ) :
    (book.table.keys = [] ∧ book.evict_for_insert source = book) ∨
    ∃ key e, book.table.lookup key = some e ∧ book.evict_for_insert source = book.remove_key key ∧
      ∀ src, source = some src → source_quota book.cap ≤ (book.owned src).card →
        book.source_of.lookup key = some src := by
  cases hown : book.own_oldest source with
  | some key =>
    rw [evict_for_insert, hown]
    unfold own_oldest at hown
    split at hown
    · cases hown
    · next src =>
      split at hown
      · cases hown
      · next entries ho =>
        split at hown
        · obtain ⟨⟨n, k⟩, hf, rfl⟩ := Option.map_eq_some_iff.mp hown
          have hm : toLex (n, k) ∈ book.owned src := by
            rw [owned, ho]
            exact first_mem hf
          have hs := ((h.by_source _ _ _).mp hm).1
          obtain ⟨e, he⟩ := Option.isSome_iff_exists.mp (h.sources hs)
          refine .inr ⟨k, e, he, rfl, ?_⟩
          rintro _ ⟨⟩ -
          exact hs
        · cases hown
  | none =>
    have hquota : ∀ src, source = some src → ¬source_quota book.cap ≤ (book.owned src).card := by
      rintro src rfl hq
      unfold own_oldest at hown
      have hpos : 0 < source_quota book.cap := by
        unfold source_quota
        omega
      cases ho : book.by_source.lookup src with
      | none =>
        rw [owned, ho] at hq
        exact absurd (hpos.trans_le hq) (by simp)
      | some entries =>
        rw [owned, ho, Option.getD_some] at hq
        dsimp only at hown
        rw [ho] at hown
        dsimp only at hown
        rw [if_pos hq, Option.map_eq_none_iff] at hown
        rw [first_none hown] at hq
        exact absurd (hpos.trans_le hq) (by simp)
    rw [evict_for_insert, hown]
    cases hf : first book.order with
    | none =>
      refine .inl ⟨List.eq_nil_iff_forall_not_mem.mpr fun key hkey => ?_, rfl⟩
      obtain ⟨e, he⟩ := Option.isSome_iff_exists.mp (mem_keys_iff.mp hkey)
      obtain ⟨n, hn⟩ := h.seq_of he
      have hm : row e.last_seen n key ∈ book.order := (h.order _ _ _).mpr ⟨by rw [he]; rfl, hn⟩
      rw [first_none hf] at hm
      exact absurd hm (Finset.notMem_empty _)
    | some victim =>
      obtain ⟨last_seen, n, key⟩ := victim
      obtain ⟨hl, hn⟩ := (h.order last_seen n key).mp (first_mem hf)
      obtain ⟨e, he, -⟩ := Option.map_eq_some_iff.mp hl
      exact .inr ⟨key, e, he, rfl, fun src hsrc hq => absurd hq (hquota src hsrc)⟩

structure Sound (cap : ℕ) (book : AddrBook) : Prop where
  consistent : Consistent book
  sized : book.cap = cap
  fits : book.len ≤ cap
  quota : ∀ source, (book.owned source).card ≤ source_quota cap

variable {cap : ℕ} {addr : NetAddr} {seen now : ℕ}

theorem Sound.remove_key (h : Sound cap book) (key : AddrKey) : Sound cap (book.remove_key key) where
  consistent := h.consistent.remove_key key
  sized := cap_remove_key.trans h.sized
  fits := by
    cases he : book.table.lookup key with
    | none => rw [remove_key_none he]; exact h.fits
    | some e => exact (Nat.le_succ _).trans ((len_remove_key he).trans_le h.fits)
  quota source := (Finset.card_le_card owned_remove_key).trans (h.quota source)

theorem Sound.update (h : Sound cap book) (he : book.table.lookup key = some e) (hk : key_of e'.addr = key_of e.addr)
    (hl : e'.last_seen = e.last_seen) :
    Sound cap { book with table := book.table.insert key e' } :=
  ⟨h.consistent.update_same he hk hl, h.sized, (length_keys_insert (by rw [he]; rfl) e').trans_le h.fits, h.quota⟩

theorem Sound.mark_attempt (h : Sound cap book) (addr : NetAddr) : Sound cap (book.mark_attempt addr) := by
  unfold AddrBook.mark_attempt
  split
  · exact h
  · next e he => exact h.update he rfl rfl

theorem Sound.mark_tried (h : Sound cap book) (addr : NetAddr) : Sound cap (book.mark_tried addr) := by
  unfold AddrBook.mark_tried
  split
  · exact h
  · next e he => exact h.update he rfl rfl

structure Room (cap : ℕ) (book t : AddrBook) (key : AddrKey) (source : Option ℕ) : Prop where
  consistent : Consistent t
  sized : t.cap = cap
  fits : t.len < cap
  owned : ∀ src, t.owned src ⊆ book.owned src
  free : t.table.lookup key = none
  own : ∀ src, source = some src → (t.owned src).card < source_quota cap
  gone : ∀ src k, source = some src → source_quota cap ≤ (book.owned src).card →
    (book.table.lookup k).isSome → t.table.lookup k = none → book.source_of.lookup k = some src

section

variable (h : Sound cap book)
include h

theorem Sound.makes_room (hcap : 0 < cap) (hfree : book.table.lookup key = none) (source : Option ℕ) {P : Prop}
    [Decidable P] (hlen : book.cap ≤ book.len → P)
    (hown : ∀ src, source = some src → source_quota book.cap ≤ (book.owned src).card → P) :
    Room cap book (if P then book.evict_for_insert source else book) key source := by
  have hsized := h.sized
  have hfits := h.fits
  split
  · obtain ⟨hnil, heq⟩ | ⟨k, e, he, heq, hsource⟩ := h.consistent.evicts source
    · have hnone : ∀ k, book.table.lookup k = none := by
        intro k
        have := mem_keys_iff (t := book.table) (k := k)
        rw [hnil] at this
        simpa using this
      have hempty : ∀ src, book.owned src = ∅ := by
        refine fun src => Finset.eq_empty_of_forall_notMem ?_
        rintro ⟨n, k⟩ hm
        have := h.consistent.sources ((h.consistent.by_source _ _ _).mp hm).1
        rw [hnone] at this
        cases this
      rw [heq]
      refine ⟨h.consistent, hsized, ?_, fun _ => Finset.Subset.refl _, hfree, fun src _ => ?_, fun src k _ _ hk => ?_⟩
      · rw [len, hnil]
        exact hcap
      · rw [hempty, source_quota]
        simp
      · rw [hnone] at hk
        cases hk
    · rw [heq]
      have hless := len_remove_key he
      refine ⟨h.consistent.remove_key k, cap_remove_key.trans hsized, by omega, fun _ => owned_remove_key, ?_, ?_, ?_⟩
      · rw [lookup_remove_key]
        split
        · rfl
        · exact hfree
      · intro src hsrc
        by_cases hq : source_quota cap ≤ (book.owned src).card
        · exact (h.consistent.owned_lt (hsource src hsrc (hsized ▸ hq))).trans_le (h.quota src)
        · exact (Finset.card_le_card owned_remove_key).trans_lt (Nat.lt_of_not_le hq)
      · intro src j hsrc hq hj hgone
        rw [lookup_remove_key] at hgone
        split at hgone
        · next heq => exact heq ▸ hsource src hsrc (hsized ▸ hq)
        · rw [hgone] at hj
          cases hj
  · next hnot =>
    refine ⟨h.consistent, hsized, ?_, fun _ => Finset.Subset.refl _, hfree, ?_, ?_⟩
    · exact hsized ▸ Nat.lt_of_not_le fun hle => hnot (hlen hle)
    · exact fun src hsrc => hsized ▸ Nat.lt_of_not_le fun hle => hnot (hown src hsrc hle)
    · intro src j _ _ hj hgone
      rw [hgone] at hj
      cases hj

theorem Sound.refresh (he : book.table.lookup key = some e) (addr : NetAddr) (last_seen : ℕ) :
    Sound cap (book.refresh key e addr last_seen) :=
  ⟨h.consistent.refresh he addr last_seen, h.sized, (length_keys_insert (by rw [he]; rfl) _).trans_le h.fits, h.quota⟩

theorem Sound.add (hcap : 0 < cap) (addr : NetAddr) (seen now : ℕ) :
    Sound cap (book.add addr seen now).2 := by
  unfold AddrBook.add
  split
  · exact h
  split
  · next e he => exact h.refresh he _ _
  · next hfree =>
    have hroom := h.makes_room hcap hfree none (P := book.cap ≤ book.len) id (by simp)
    exact ⟨hroom.consistent.insert_entry hroom.free rfl, hroom.sized,
      (length_keys_fresh hroom.free _).trans_le hroom.fits,
      fun src => (Finset.card_le_card (hroom.owned src)).trans (h.quota src)⟩

theorem Sound.add_from (hcap : 0 < cap) (addr : NetAddr) (seen now source : ℕ) :
    Sound cap (book.add_from addr seen now source).2 := by
  unfold AddrBook.add_from
  split
  · exact h
  split
  · exact h.add hcap addr seen now
  · next hfree =>
    have hnew : book.table.lookup (key_of addr) = none := by simpa using hfree
    have hroom := h.makes_room hcap hnew (some source)
      (P := book.cap ≤ book.len ∨ source_quota book.cap ≤ (book.owned source).card) .inl
      (by rintro _ ⟨⟩ hq; exact .inr hq)
    dsimp only
    generalize (if book.cap ≤ book.len ∨ source_quota book.cap ≤ (book.owned source).card then
      book.evict_for_insert (some source) else book) = t at hroom ⊢
    have hnone : t.source_of.lookup (key_of addr) = none := by
      refine Option.eq_none_iff_forall_ne_some.mpr fun src hs => ?_
      have := hroom.consistent.sources hs
      rw [hroom.free] at this
      cases this
    have hins : Consistent (t.insert_entry (key_of addr) ⟨addr, min seen now, false, 0⟩) :=
      hroom.consistent.insert_entry hroom.free rfl
    refine ⟨hins.charge (by rw [insert_entry, AList.lookup_insert]) hnone source, hroom.sized,
      (length_keys_fresh hroom.free _).trans_le hroom.fits, fun src => ?_⟩
    rw [charge, owned, lookup_insert_eq]
    split
    · next heq =>
      have hlt := hroom.own source rfl
      exact (Finset.card_insert_le _ _).trans (heq ▸ hlt)
    · exact (Finset.card_le_card (hroom.owned src)).trans (h.quota src)

theorem Sound.add_from_own (hcap : 0 < cap) (hquota : source_quota cap ≤ (book.owned source).card)
    (hk : (book.table.lookup key).isSome) (hgone : (book.add_from addr seen now source).2.table.lookup key = none) :
    book.source_of.lookup key = some source := by
  unfold AddrBook.add_from at hgone
  split at hgone
  · rw [hgone] at hk
    cases hk
  split at hgone
  · next hold =>
    unfold AddrBook.add at hgone
    split at hgone
    · rw [hgone] at hk
      cases hk
    obtain ⟨e, he⟩ := Option.isSome_iff_exists.mp hold
    rw [he] at hgone
    unfold AddrBook.refresh at hgone
    rw [lookup_insert_eq] at hgone
    split at hgone
    · cases hgone
    · rw [hgone] at hk
      cases hk
  · next hfree =>
    have hnew : book.table.lookup (key_of addr) = none := by simpa using hfree
    have hroom := h.makes_room hcap hnew (some source)
      (P := book.cap ≤ book.len ∨ source_quota book.cap ≤ (book.owned source).card) .inl
      (by rintro _ ⟨⟩ hq; exact .inr hq)
    dsimp only at hgone
    generalize (if book.cap ≤ book.len ∨ source_quota book.cap ≤ (book.owned source).card then
      book.evict_for_insert (some source) else book) = t at hroom hgone
    rw [charge, insert_entry] at hgone
    rw [lookup_insert_eq] at hgone
    split at hgone
    · cases hgone
    · exact hroom.gone source key rfl hquota hk hgone

end

theorem restore_keeps (h : Consistent book) (hnone : book.by_source = ∅) (info : AddrInfo) (now : ℕ) :
    Consistent (book.restore info now) ∧ (book.restore info now).by_source = ∅ ∧
      (book.restore info now).cap = book.cap ∧
      ∀ key ∈ (book.restore info now).table.keys, key ∈ book.table.keys ∨
        network_of info.addr ≠ .Unroutable ∧ key = key_of info.addr := by
  unfold AddrBook.restore
  split
  · next hnew =>
    refine ⟨h.insert_entry (by simpa using hnew.2) rfl, hnone, rfl, fun key hk => ?_⟩
    rw [mem_keys_iff, insert_entry, lookup_insert_eq] at hk
    split at hk
    · next heq => exact .inr ⟨hnew.1, heq⟩
    · exact .inl (mem_keys_iff.mpr hk)
  · exact ⟨h, hnone, rfl, fun key hk => .inl hk⟩

theorem load_entries_keeps (now : ℕ) {infos : List AddrInfo} {body rest : List UInt8}
    (hread : repeated read_info infos.length body = .ok (infos, rest)) (h : Consistent book)
    (hnone : book.by_source = ∅) :
    ∃ t, load_entries now infos.length body book = (some rest, t) ∧ Consistent t ∧ t.by_source = ∅ ∧
      t.cap = book.cap ∧
      ∀ key ∈ t.table.keys, key ∈ book.table.keys ∨
        ∃ info ∈ infos, network_of info.addr ≠ .Unroutable ∧ key = key_of info.addr := by
  induction infos generalizing book body with
  | nil =>
    cases hread
    exact ⟨book, rfl, h, hnone, rfl, fun key hk => .inl hk⟩
  | cons info infos ih =>
    obtain ⟨info', body', hi, hread⟩ := bind_eq_ok.mp hread
    obtain ⟨infos', rest', hr, hread⟩ := bind_eq_ok.mp hread
    cases hread
    obtain ⟨hc, hn, hcap, hkeys⟩ := restore_keeps h hnone info now
    obtain ⟨t, ht, hct, hnt, hcapt, hkt⟩ := ih hr hc hn
    refine ⟨t, ?_, hct, hnt, hcapt.trans hcap, fun key hk => ?_⟩
    · rw [List.length_cons, load_entries, hi]
      exact ht
    · rcases hkt key hk with hk | ⟨info', hi', hroute, heq⟩
      · rcases hkeys key hk with hk | ⟨hroute, heq⟩
        · exact .inl hk
        · exact .inr ⟨info, List.mem_cons_self, hroute, heq⟩
      · exact .inr ⟨info', List.mem_cons_of_mem _ hi', hroute, heq⟩

end AddrBook

/-- The file is refused before the book is cleared, or is a whole image of no more endpoints than fit. -/
def PeersFile.Safe [Platform] (file : PeersFile) (cap : ℕ) : Prop :=
  match file with
  | .missing => True
  | .unreadable => True
  | .bytes raw => ∀ count body, read_head raw = some (count, body) →
    ∃ infos, repeated read_info count body = .ok (infos, []) ∧
      ((infos.filter fun info => network_of info.addr ≠ .Unroutable).map fun info => key_of info.addr).toFinset.card ≤
        cap

namespace AddrBook

variable {book : AddrBook} {cap : ℕ}

theorem Sound.load [Platform] (h : Sound cap book) {file : PeersFile} (hfile : file.Safe cap) (now : ℕ) :
    Sound cap (book.load file now).2 ∧ ∀ e, (book.load file now).1 = .error e → (book.load file now).2 = book := by
  cases file with
  | missing => exact ⟨h, fun _ _ => rfl⟩
  | unreadable => exact ⟨h, fun _ _ => rfl⟩
  | bytes raw =>
    rw [AddrBook.load]
    cases hhead : read_head raw with
    | none => exact ⟨h, fun _ _ => rfl⟩
    | some head =>
      obtain ⟨count, body⟩ := head
      obtain ⟨infos, hread, hcard⟩ := hfile count body hhead
      obtain rfl : infos.length = count := repeated_length hread
      obtain ⟨t, ht, hc, hn, hcap, hkeys⟩ :=
        load_entries_keeps now hread (Consistent.with_cap book.cap) rfl
      dsimp only
      rw [ht]
      refine ⟨⟨hc, hcap.trans h.sized, ?_, fun source => ?_⟩, fun e he => ?_⟩
      · change t.table.keys.length ≤ cap
        rw [← List.toFinset_card_of_nodup t.table.keys_nodup]
        refine (Finset.card_le_card fun key hk => ?_).trans hcard
        rcases hkeys key (List.mem_toFinset.mp hk) with hk | ⟨info, hi, hroute, rfl⟩
        · cases hk
        · exact List.mem_toFinset.mpr (List.mem_map_of_mem (List.mem_filter.mpr ⟨hi, by simpa using hroute⟩))
      · rw [owned, hn]
        simp
      · cases he

end AddrBook

def AddrOp.Safe [Platform] (op : AddrOp) (cap : ℕ) : Prop :=
  match op with
  | .load file _ => file.Safe cap
  | _ => True

namespace AddrBook

variable {book : AddrBook} {cap : ℕ}

theorem Sound.step [Platform] (h : Sound cap book) (hcap : 0 < cap) {op : AddrOp} (hop : op.Safe cap) :
    Sound cap (book.step op) := by
  cases op with
  | add addr seen now => exact h.add hcap addr seen now
  | add_from addr seen now source => exact h.add_from hcap addr seen now source
  | mark_attempt addr => exact h.mark_attempt addr
  | mark_tried addr => exact h.mark_tried addr
  | forget addr => exact h.remove_key _
  | load file now => exact (h.load hop now).1

theorem Sound.run [Platform] (hcap : 0 < cap) {ops : List AddrOp} (hops : ∀ op ∈ ops, op.Safe cap)
    (h : Sound cap book) : Sound cap (ops.foldl AddrBook.step book) := by
  induction ops generalizing book with
  | nil => exact h
  | cons op ops ih =>
    rw [List.forall_mem_cons] at hops
    exact ih hops.2 (h.step hcap hops.1)

theorem Sound.with_cap (cap : ℕ) : Sound cap (AddrBook.with_cap cap) :=
  ⟨Consistent.with_cap cap, rfl, Nat.zero_le _, fun _ => Nat.zero_le _⟩

/-- While the cap is positive and every file loaded is refused at its head or is whole and fits, the maps agree
with the table, the cap and the quotas hold, a source at its quota pushes out none but its own entries, and a
failed load leaves the book as it was. -/
theorem resists_flushing [Platform] (hcap : 0 < cap) (ops : List AddrOp) (hops : ∀ op ∈ ops, op.Safe cap) :
    let book := ops.foldl AddrBook.step (AddrBook.with_cap cap)
    Consistent book ∧ book.len ≤ cap ∧ (∀ source, (book.owned source).card ≤ source_quota cap) ∧
    (∀ addr seen now source key, source_quota cap ≤ (book.owned source).card → (book.table.lookup key).isSome →
      (book.add_from addr seen now source).2.table.lookup key = none → book.source_of.lookup key = some source) ∧
    ∀ (file : PeersFile) now e, file.Safe cap → (book.load file now).1 = .error e →
      (book.load file now).2 = book := by
  have h := (Sound.with_cap cap).run hcap hops
  exact ⟨h.consistent, h.fits, h.quota, fun addr seen now source key hq => h.add_from_own hcap hq,
    fun file now e hfile => (h.load hfile now).2 e⟩

end AddrBook

section Sample

attribute [local instance] Platform.sample

def sample_addr (last : UInt8) : NetAddr :=
  ⟨1, #v[0, 0, 0, 0, 0, 0, 0, 0, 0, 0, 0xff, 0xff, 93, 184, 216, last], 8333⟩

def sealed (body : List UInt8) : List UInt8 := PEERS_MAGIC ++ (Platform.sha256d body).to_bytes ++ body

def sample_record (last : UInt8) : List UInt8 :=
  [100, 0, 0, 0, 0, 0, 1, 0, 0, 0, 0, 0, 0, 0, 0, 0, 0, 0, 0, 0, 0, 0, 0, 0, 0xff, 0xff, 93, 184, 216, last, 0x8d,
    0x20]

theorem resists_flushing_sample :
    ([AddrOp.add (sample_addr 1) 100 200, .add_from (sample_addr 2) 100 200 7].foldl AddrBook.step
      (AddrBook.with_cap 1)).len ≤ 1 :=
  (AddrBook.resists_flushing Nat.one_pos _ (by simp [AddrOp.Safe])).2.1

/-- A file whose second entry is cut short takes a full book with it, and a file of two entries overfills a book
for one. -/
theorem load_flushes :
    ((AddrBook.with_cap 8).step (.add (sample_addr 1) 100 200)).len = 1 ∧
    (((AddrBook.with_cap 8).step (.add (sample_addr 1) 100 200)).load
      (.bytes (sealed [1, 0, 0, 0, 1, 100])) 200).1 = .error .InvalidData ∧
    (((AddrBook.with_cap 8).step (.add (sample_addr 1) 100 200)).load
      (.bytes (sealed [1, 0, 0, 0, 1, 100])) 200).2.len = 0 ∧
    ((AddrBook.with_cap 1).step
      (.load (.bytes (sealed ([1, 0, 0, 0, 2] ++ sample_record 1 ++ sample_record 2))) 200)).len = 2 := by
  decide +kernel

end Sample

end AvilaNode.Wire
