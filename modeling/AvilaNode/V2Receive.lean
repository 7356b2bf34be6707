import AvilaNode.V2Channel

/-! What the receiver makes of a sender's packets, however their bytes arrive. -/

namespace AvilaNode.V2

open ByteStrings V2Channel

variable [Ciphers]

structure Packet where
  contents : List UInt8
  ignore : Bool

def sent (s : Bip324Cipher) (aad : List UInt8) : List Packet → List UInt8
  | [] => []
  | p :: packets =>
    (s.encrypt_packet p.contents aad p.ignore).1 ++ sent (s.encrypt_packet p.contents aad p.ignore).2 [] packets

def sender_after (s : Bip324Cipher) (aad : List UInt8) : List Packet → Bip324Cipher
  | [] => s
  | p :: packets => sender_after (s.encrypt_packet p.contents aad p.ignore).2 [] packets

omit [Ciphers] in
def Packet.message (p : Packet) : Option Named := if p.ignore then none else decode_message_type p.contents

omit [Ciphers] in
def heard : Bool → List Packet → List Named
  | true, packets => packets.filterMap Packet.message
  | false, packets => (packets.drop 1).filterMap Packet.message

/-- A channel past the terminator, with the bytes still to come: its buffer starts at a packet's length, or
after it. -/
structure Pending (s : Bip324Cipher) (aad : List UInt8) (packets : List Packet) (ch : V2Channel) (rest : List UInt8) :
    Prop where
  terminator : ch.saw_terminator = true
  packet : s.send_p = ch.cipher.recv_p
  place : (ch.recv_len = none ∧ s.send_l = ch.cipher.recv_l ∧ ch.recv_buf ++ rest = sent s aad packets) ∨
    ∃ p back, packets = p :: back ∧ ch.recv_len = some p.contents.length ∧ p.contents.length ≤ MAX_CONTENTS_LEN ∧
      (s.encrypt_packet p.contents aad p.ignore).2.send_l = ch.cipher.recv_l ∧
      ch.recv_buf ++ rest = (s.encrypt_packet p.contents aad p.ignore).1.drop LENGTH_LEN ++
        sent (s.encrypt_packet p.contents aad p.ignore).2 [] back

omit [Ciphers] in
def wanted (ch : V2Channel) : ℕ := (ch.recv_len.map fun len => HEADER_LEN + len + TAG_LEN).getD LENGTH_LEN

variable {s : Bip324Cipher} {aad : List UInt8} {packets : List Packet} {ch : V2Channel} {rest : List UInt8}

theorem Pending.finished (h : Pending s aad packets ch []) (hshort : ch.recv_buf.length < wanted ch) : packets =
    [] := by
  rcases h.place with ⟨hnone, -, hbuf⟩ | ⟨p, back, -, hsome, -, -, hbuf⟩
  · cases packets with
    | nil => rfl
    | cons p back =>
      have hlen := congrArg List.length hbuf
      rw [sent, List.length_append, List.length_append, Bip324Cipher.length_encrypt_packet] at hlen
      rw [wanted, hnone] at hshort
      simp only [EXPANSION, LENGTH_LEN, HEADER_LEN, TAG_LEN, Option.map_none, Option.getD_none, List.length_nil]
        at hlen hshort
      omega
  · have hlen := congrArg List.length hbuf
    rw [List.length_append, List.length_append, List.length_drop, Bip324Cipher.length_encrypt_packet] at hlen
    rw [wanted, hsome] at hshort
    simp only [EXPANSION, LENGTH_LEN, HEADER_LEN, TAG_LEN, Option.map_some, Option.getD_some, List.length_nil]
      at hlen hshort
    omega

omit [Ciphers] in
theorem take_of_append {α : Type} {front rest bytes tail : List α} (h : front ++ rest = bytes ++ tail) {n : ℕ}
    (hfront : n ≤ front.length) (hbytes : n ≤ bytes.length) : front.take n = bytes.take n := by
  have ht := congrArg (List.take n) h
  rwa [List.take_append_of_le_length hfront, List.take_append_of_le_length hbytes] at ht

omit [Ciphers] in
theorem drop_of_append {α : Type} {front rest bytes tail : List α} (h : front ++ rest = bytes ++ tail) {n : ℕ}
    (hfront : n ≤ front.length) (hbytes : n ≤ bytes.length) : front.drop n ++ rest = bytes.drop n ++ tail := by
  have hd := congrArg (List.drop n) h
  rwa [List.drop_append_of_le_length hfront, List.drop_append_of_le_length hbytes] at hd

theorem Pending.read_length (h : Pending s aad packets ch rest) (hfit : ∀ p ∈ packets, p.contents.length < 2 ^ 24) :
    (∃ p ∈ packets, MAX_CONTENTS_LEN < p.contents.length ∧ ch.read_length = .error "packet contents too large") ∨
    ∃ ch', ch.read_length = .ok ch' ∧ Pending s aad packets ch' rest ∧ ch'.recv_aad = ch.recv_aad ∧
      ch'.saw_version = ch.saw_version ∧ ch'.recv_buf.length ≤ ch.recv_buf.length ∧
      (ch'.recv_len = none → ch'.recv_buf.length < LENGTH_LEN) := by
  rcases h.place with ⟨hnone, hl, hbuf⟩ | ⟨p, back, -, hsome, -⟩
  · by_cases hshort : ch.recv_buf.length < LENGTH_LEN
    · refine .inr ⟨ch, ?_, h, rfl, rfl, le_refl _, fun _ => hshort⟩
      rw [V2Channel.read_length, hnone]
      exact if_pos hshort
    · cases packets with
      | nil =>
        simp only [sent, List.append_eq_nil_iff] at hbuf
        rw [hbuf.1] at hshort
        exact absurd (by decide) hshort
      | cons p back =>
        rw [sent] at hbuf
        have hlen := Bip324Cipher.length_encrypt_packet s p.contents aad p.ignore
        have hthree : LENGTH_LEN ≤ (s.encrypt_packet p.contents aad p.ignore).1.length := by
          rw [hlen, EXPANSION]
          omega
        have hread := Bip324Cipher.Paired.decrypt_length ⟨hl, h.packet⟩ (hfit p (by simp)) aad p.ignore
        rw [← take_of_append hbuf (Nat.not_lt.mp hshort) hthree] at hread
        by_cases hbig : MAX_CONTENTS_LEN < p.contents.length
        · refine .inl ⟨p, by simp, hbig, ?_⟩
          rw [V2Channel.read_length, hnone]
          simp only [if_neg hshort, hread, if_pos hbig]
        · refine .inr ⟨{ ch with
            cipher := { ch.cipher with recv_l := (s.encrypt_packet p.contents aad p.ignore).2.send_l },
            recv_buf := ch.recv_buf.drop LENGTH_LEN, recv_len := some p.contents.length }, ?_,
            ⟨h.terminator, h.packet, .inr ⟨p, back, rfl, rfl, Nat.not_lt.mp hbig, rfl,
              drop_of_append hbuf (Nat.not_lt.mp hshort) hthree⟩⟩, rfl, rfl, by simp, by simp⟩
          rw [V2Channel.read_length, hnone]
          simp only [if_neg hshort, hread, if_neg hbig]
  · refine .inr ⟨ch, ?_, h, rfl, rfl, le_refl _, ?_⟩
    · rw [V2Channel.read_length, hsome]
    · rw [hsome]
      simp

theorem Pending.read_packet (h : Pending s aad packets ch rest) (haad : ch.recv_aad.getD [] = aad)
    (hnone : ch.recv_len = none → ch.recv_buf.length < LENGTH_LEN) :
    (ch.read_packet = .ok (.wait ch) ∧ ch.recv_buf.length < wanted ch) ∨
    ∃ p back out ch', packets = p :: back ∧ p.contents.length ≤ MAX_CONTENTS_LEN ∧
      ch.read_packet = .ok (.go ch' out) ∧ Pending (s.encrypt_packet p.contents aad p.ignore).2 [] back ch' rest ∧
      ch'.recv_aad = none ∧ ch'.saw_version = true ∧ ch'.recv_buf.length < ch.recv_buf.length ∧
      out.toList ++ heard true back = heard ch.saw_version packets := by
  rcases h.place with ⟨hlen, -, -⟩ | ⟨p, back, rfl, hsome, hmax, hl, hbuf⟩
  · refine .inl ⟨by rw [V2Channel.read_packet, hlen], ?_⟩
    rw [wanted, hlen]
    exact hnone hlen
  · by_cases hshort : ch.recv_buf.length < HEADER_LEN + p.contents.length + TAG_LEN
    · refine .inl ⟨?_, by rwa [wanted, hsome]⟩
      rw [V2Channel.read_packet, hsome]
      exact if_pos hshort
    · have hlen : ((s.encrypt_packet p.contents aad p.ignore).1.drop LENGTH_LEN).length =
          HEADER_LEN + p.contents.length + TAG_LEN := by
        rw [List.length_drop, Bip324Cipher.length_encrypt_packet, EXPANSION]
        omega
      have hbytes := take_of_append hbuf (Nat.not_lt.mp hshort) hlen.ge
      have htail := drop_of_append hbuf (Nat.not_lt.mp hshort) hlen.ge
      rw [List.take_of_length_le hlen.le] at hbytes
      rw [List.drop_eq_nil_of_le hlen.le, List.nil_append] at htail
      have hplain := Bip324Cipher.Paired.decrypt_packet h.packet p.contents aad p.ignore
      have hdrop : (ch.recv_buf.drop (HEADER_LEN + p.contents.length + TAG_LEN)).length < ch.recv_buf.length := by
        rw [List.length_drop, HEADER_LEN, TAG_LEN]
        have := Nat.not_lt.mp hshort
        rw [HEADER_LEN, TAG_LEN] at this
        omega
      set taken : V2Channel := { ch with
        cipher := { ch.cipher with recv_p := (s.encrypt_packet p.contents aad p.ignore).2.send_p },
        recv_buf := ch.recv_buf.drop (HEADER_LEN + p.contents.length + TAG_LEN), recv_len := none, recv_aad := none }
        with htaken
      have hread : ch.read_packet = if !ch.saw_version then .ok (.go { taken with saw_version := true } none)
          else if p.ignore then .ok (.go taken none) else .ok (.go taken (decode_message_type p.contents)) := by
        rw [V2Channel.read_packet, hsome]
        simp only [if_neg hshort, hbytes, haad, hplain]
        rfl
      have hpending : ∀ saw, Pending (s.encrypt_packet p.contents aad p.ignore).2 [] back
          { taken with saw_version := saw } rest := fun saw => ⟨h.terminator, rfl, .inl ⟨rfl, hl, htail⟩⟩
      right
      cases hsaw : ch.saw_version with
      | false =>
        refine ⟨p, back, none, { taken with saw_version := true }, rfl, hmax, ?_, hpending true, rfl, rfl, hdrop, rfl⟩
        rw [hread, hsaw]
        rfl
      | true =>
        have hnext : Pending (s.encrypt_packet p.contents aad p.ignore).2 [] back taken rest := by
          have htrue : taken = { taken with saw_version := true } := by rw [htaken, hsaw]
          rw [htrue]
          exact hpending true
        rw [hsaw, Bool.not_true, if_neg Bool.false_ne_true] at hread
        by_cases hignore : p.ignore = true
        · refine ⟨p, back, none, taken, rfl, hmax, by rw [hread, if_pos hignore], hnext, rfl, hsaw, hdrop, ?_⟩
          simp [heard, Packet.message, hignore]
        · refine ⟨p, back, decode_message_type p.contents, taken, rfl, hmax, by rw [hread, if_neg hignore], hnext,
            rfl,
            hsaw, hdrop, ?_⟩
          cases hm : decode_message_type p.contents <;> simp [heard, Packet.message, hignore, hm]

structure Reached (s : Bip324Cipher) (aad : List UInt8) (packets : List Packet) (saw : Bool) (s' : Bip324Cipher)
    (aad' : List UInt8) (back : List Packet) (ch' : V2Channel) (rest : List UInt8) (outs : List Named) : Prop where
  pending : Pending s' aad' back ch' rest
  expected : ch'.recv_aad.getD [] = aad'
  heard : outs ++ heard ch'.saw_version back = heard saw packets
  after : sender_after s' aad' back = sender_after s aad packets
  kept : back <:+ packets
  fits : ∀ p ∈ packets, p ∈ back ∨ p.contents.length ≤ MAX_CONTENTS_LEN
  cleared : aad = [] ∨ back ≠ packets → aad' = []
  version : saw = true ∨ back ≠ packets → ch'.saw_version = true

variable {s' s'' : Bip324Cipher} {aad' aad'' : List UInt8} {back back' : List Packet} {ch' ch'' : V2Channel}
  {rest' : List UInt8} {outs outs' : List Named}

theorem Reached.trans {saw : Bool} (h : Reached s aad packets saw s' aad' back ch' rest outs)
    (h' : Reached s' aad' back ch'.saw_version s'' aad'' back' ch'' rest' outs') :
    Reached s aad packets saw s'' aad'' back' ch'' rest' (outs ++ outs') where
  pending := h'.pending
  expected := h'.expected
  heard := by rw [List.append_assoc, h'.heard, h.heard]
  after := h'.after.trans h.after
  kept := h'.kept.trans h.kept
  fits p hp := (h.fits p hp).elim (h'.fits p) .inr
  cleared hc := by
    by_cases hb : aad = [] ∨ back ≠ packets
    · exact h'.cleared (.inl (h.cleared hb))
    · rw [not_or, not_not] at hb
      exact h'.cleared (.inr (hb.2 ▸ hc.resolve_left hb.1))
  version hs := by
    by_cases hb : saw = true ∨ back ≠ packets
    · exact h'.version (.inl (h.version hb))
    · rw [not_or, not_not] at hb
      exact h'.version (.inr (hb.2 ▸ hs.resolve_left hb.1))

theorem turn_eq (h : ch.saw_terminator = true) : ch.turn = ch.read_length.bind V2Channel.read_packet := by
  rw [turn, skip_garbage, if_pos h]
  change (if !ch.saw_terminator then _ else _) = _
  rw [h]
  rfl

theorem Pending.turn (h : Pending s aad packets ch rest) (haad : ch.recv_aad.getD [] = aad)
    (hfit : ∀ p ∈ packets, p.contents.length < 2 ^ 24) :
    ((∃ p ∈ packets, MAX_CONTENTS_LEN < p.contents.length) ∧ ∃ e, ch.turn = .error e) ∨
    (∃ ch', ch.turn = .ok (.wait ch') ∧ ch'.recv_buf.length < wanted ch' ∧
      Reached s aad packets ch.saw_version s aad packets ch' rest []) ∨
    ∃ s' back ch' out, ch.turn = .ok (.go ch' out) ∧ ch'.recv_buf.length < ch.recv_buf.length ∧
      Reached s aad packets ch.saw_version s' [] back ch' rest out.toList := by
  rw [turn_eq h.terminator]
  rcases h.read_length hfit with ⟨p, hp, hbig, herr⟩ | ⟨ch₁, hread, h₁, haad₁, hsaw₁, hle, hnone⟩
  · rw [herr]
    exact .inl ⟨⟨p, hp, hbig⟩, _, rfl⟩
  rw [hread]
  change (_ ∧ ∃ e, ch₁.read_packet = .error e) ∨ (∃ ch', ch₁.read_packet = _ ∧ _) ∨
    ∃ s' back ch' out, ch₁.read_packet = _ ∧ _
  rw [← haad₁] at haad
  rcases h₁.read_packet haad hnone with ⟨hwait, hshort⟩ |
    ⟨p, back, out, ch', rfl, hmax, hgo, h', hnone', hsaw', hlt, hheard⟩
  · exact .inr (.inl ⟨ch₁, hwait, hshort, h₁, haad, by rw [hsaw₁, List.nil_append], rfl, List.suffix_refl _,
      fun p hp => .inl hp, fun hc => hc.resolve_right (not_not.mpr rfl),
      fun hs => hsaw₁.trans (hs.resolve_right (not_not.mpr rfl))⟩)
  · refine .inr (.inr ⟨_, back, ch', out, hgo, hlt.trans_le hle, h', by rw [hnone', Option.getD_none], ?_, rfl,
      List.suffix_cons p back, ?_, fun _ => rfl, fun _ => hsaw'⟩)
    · rw [hsaw', hheard, hsaw₁]
    · rw [List.forall_mem_cons]
      exact ⟨.inr hmax, fun q hq => .inl hq⟩

theorem Pending.drain (h : Pending s aad packets ch rest) (haad : ch.recv_aad.getD [] = aad)
    (hfit : ∀ p ∈ packets, p.contents.length < 2 ^ 24) {fuel : ℕ} (hfuel : ch.recv_buf.length < fuel) :
    ((∃ p ∈ packets, MAX_CONTENTS_LEN < p.contents.length) ∧ ∃ e, V2Channel.drain fuel ch = .error e) ∨
    ∃ outs ch' s' aad' back, V2Channel.drain fuel ch = .ok (outs, ch') ∧ ch'.recv_buf.length < wanted ch' ∧
      Reached s aad packets ch.saw_version s' aad' back ch' rest outs := by
  induction fuel generalizing s aad packets ch with
  | zero => omega
  | succ fuel ih =>
    rw [V2Channel.drain]
    rcases h.turn haad hfit with ⟨hbig, e, herr⟩ | ⟨ch', hwait, hshort, hr⟩ | ⟨s', back, ch', out, hgo, hlt, hr⟩
    · rw [herr]
      exact .inl ⟨hbig, e, rfl⟩
    · rw [hwait]
      exact .inr ⟨[], ch', s, aad, packets, rfl, hshort, hr⟩
    · rw [hgo]
      simp only
      have hfit' : ∀ p ∈ back, p.contents.length < 2 ^ 24 := fun p hp => hfit p (hr.kept.mem hp)
      rcases ih hr.pending hr.expected hfit' (by omega) with ⟨⟨p, hp, hbig⟩, e, herr⟩ |
        ⟨outs, ch'', s'', aad'', back', hok, hshort, hr'⟩
      · rw [herr]
        exact .inl ⟨⟨p, hr.kept.mem hp, hbig⟩, e, rfl⟩
      · rw [hok]
        exact .inr ⟨_, ch'', s'', aad'', back', rfl, hshort, hr.trans hr'⟩

theorem Pending.more {bytes : List UInt8} (h : Pending s aad packets ch (bytes ++ rest)) :
    Pending s aad packets { ch with recv_buf := ch.recv_buf ++ bytes } rest := by
  refine ⟨h.terminator, h.packet, ?_⟩
  simp only [List.append_assoc]
  exact h.place

theorem Pending.feeds {chunks : List (List UInt8)} (h : Pending s aad packets ch (chunks.flatten ++ rest))
    (haad : ch.recv_aad.getD [] = aad) (hfit : ∀ p ∈ packets, p.contents.length < 2 ^ 24)
    (hshort : ch.recv_buf.length < wanted ch) :
    ((∃ p ∈ packets, MAX_CONTENTS_LEN < p.contents.length) ∧ ∃ e, ch.feeds chunks = .error e) ∨
    ∃ outs ch' s' aad' back, ch.feeds chunks = .ok (outs, ch') ∧ ch'.recv_buf.length < wanted ch' ∧
      Reached s aad packets ch.saw_version s' aad' back ch' rest outs := by
  induction chunks generalizing s aad packets ch with
  | nil =>
    exact .inr ⟨[], ch, s, aad, packets, rfl, hshort, h, haad, rfl, rfl, List.suffix_refl _, fun p hp => .inl hp,
      fun hc => hc.resolve_right (not_not.mpr rfl), fun hs => hs.resolve_right (not_not.mpr rfl)⟩
  | cons bytes chunks ih =>
    rw [List.flatten_cons, List.append_assoc] at h
    rcases h.more.drain haad hfit (Nat.lt_succ_self _) with
      ⟨hbig, e, herr⟩ | ⟨outs, ch', s', aad', back, hok, hshort', hr⟩
    · left
      refine ⟨hbig, e, ?_⟩
      rw [V2Channel.feeds, feed, herr]
      rfl
    · have hfit' : ∀ p ∈ back, p.contents.length < 2 ^ 24 := fun p hp => hfit p (hr.kept.mem hp)
      rw [V2Channel.feeds, feed, hok]
      rcases ih hr.pending hr.expected hfit' hshort' with ⟨⟨p, hp, hbig⟩, e, herr⟩ |
        ⟨outs', ch'', s'', aad'', back', hok', hshort'', hr'⟩
      · left
        refine ⟨⟨p, hr.kept.mem hp, hbig⟩, e, ?_⟩
        change (ch'.feeds chunks >>= _) = _
        rw [herr]
        rfl
      · right
        refine ⟨outs ++ outs', ch'', s'', aad'', back', ?_, hshort'', hr.trans hr'⟩
        change (ch'.feeds chunks >>= _) = _
        rw [hok']
        rfl

end AvilaNode.V2
