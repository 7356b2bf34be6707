import AvilaNode.V2Streams
import AvilaNode.WireMessages

/-! Two sessions over an encrypted link: messages queued, written in part, and read. -/

namespace AvilaNode.V2

open V2Channel
open FrameCodec (Command)

structure PeerSession where
  channel : V2Channel
  send_buf : List UInt8
  send_budget : ℕ
  decoy_rng : BitVec 64
  decoy_rate : BitVec 64
  cell_bytes : ℕ

inductive SessionError where
  | BadCommand
  | SendBudget
deriving DecidableEq, Repr

def xorshift (rng : BitVec 64) : BitVec 64 :=
  let rng := rng ^^^ (rng <<< 13)
  let rng := rng ^^^ (rng >>> 7)
  rng ^^^ (rng <<< 17)

namespace PeerSession

variable [Ciphers]

def inject_decoy (session : PeerSession) : PeerSession :=
  let rng := xorshift session.decoy_rng
  if rng % session.decoy_rate = 0 then
    let decoy := session.channel.encode_decoy (rng % 2049).toNat
    { session with decoy_rng := rng, channel := decoy.2, send_buf := session.send_buf ++ decoy.1 }
  else { session with decoy_rng := rng }

def send (session : PeerSession) (message : Wire.Message) : Except SessionError Unit × PeerSession :=
  match Command.new message.command_name with
  | none => (.error .BadCommand, session)
  | some command =>
    let frame := session.channel.encode_message command.name message.encode
    let session := { session with channel := frame.2 }
    if session.send_budget < session.send_buf.length + frame.1.length then (.error .SendBudget, session)
    else (.ok (), inject_decoy { session with send_buf := session.send_buf ++ frame.1 })

omit [Ciphers] in
def padding (session : PeerSession) : Option ℕ :=
  if 64 ≤ session.cell_bytes ∧ session.send_buf ≠ [] then
    let rem := session.send_buf.length % session.cell_bytes
    if rem ≠ 0 then
      let fill := session.cell_bytes - rem
      some ((if fill < EXPANSION then fill + session.cell_bytes else fill) - EXPANSION)
    else none
  else none

def pad (session : PeerSession) : PeerSession :=
  match session.padding with
  | none => session
  | some len =>
    let decoy := session.channel.encode_decoy len
    { session with channel := decoy.2, send_buf := session.send_buf ++ decoy.1 }

def flush (session : PeerSession) (written : ℕ) : List UInt8 × PeerSession :=
  let session := session.pad
  (session.send_buf.take written, { session with send_buf := session.send_buf.drop written })

end PeerSession

/-- A sender, the bytes under way, and a receiver that an error has ended or not; what `send` has accepted and the
receiver has given. -/
structure Link where
  sender : PeerSession
  wire : List UInt8
  receiver : Except String V2Channel
  accepted : List Named
  delivered : List Named

inductive Event where
  | send (message : Wire.Message)
  | flush (written : ℕ)
  | arrive (count : ℕ)

namespace Link

section

variable [Ciphers]

def step (l : Link) : Event → Link
  | .send message =>
    let r := l.sender.send message
    { l with
      sender := r.2
      accepted := l.accepted ++ match r.1 with
        | .ok _ => [(message.command_name, message.encode)]
        | .error _ => [] }
  | .flush written =>
    let r := l.sender.flush written
    { l with sender := r.2, wire := l.wire ++ r.1 }
  | .arrive count =>
    match l.receiver with
    | .error _ => l
    | .ok ch =>
      match ch.feed (l.wire.take count) with
      | .error e => { l with wire := l.wire.drop count, receiver := .error e }
      | .ok r => { l with wire := l.wire.drop count, receiver := .ok r.2, delivered := l.delivered ++ r.1 }

def run (l : Link) (events : List Event) : Link := events.foldl step l

omit [Ciphers] in
structure Fresh (l : Link) (ch : V2Channel) : Prop where
  receiver : l.receiver = .ok ch
  paired : l.sender.channel.cipher.Paired ch.cipher
  terminator : ch.saw_terminator = true
  version : ch.saw_version = true
  aad : ch.recv_aad.getD [] = []
  len : ch.recv_len = none
  buf : ch.recv_buf = []
  wire : l.wire = []
  queue : l.sender.send_buf = []
  accepted : l.accepted = []
  delivered : l.delivered = []

omit [Ciphers] in
def Fits (l : Link) : Event → Prop
  | .send message => ∀ command ∈ Command.new message.command_name,
      let contents := encode_message_type command.name ++ message.encode
      l.sender.send_buf.length + (contents.length + EXPANSION) ≤ l.sender.send_budget ∧
        contents.length ≤ MAX_CONTENTS_LEN
  | .flush _ => ∀ len, l.sender.padding = some len → len ≤ MAX_CONTENTS_LEN
  | .arrive _ => True

def AllFit (l : Link) : List Event → Prop
  | [] => True
  | e :: events => l.Fits e ∧ (l.step e).AllFit events

omit [Ciphers] in
instance (l : Link) (e : Event) : Decidable (l.Fits e) :=
  match e with
  | .send message => inferInstanceAs (Decidable (∀ command ∈ Command.new message.command_name, _))
  | .flush _ => inferInstanceAs (Decidable (∀ len ∈ l.sender.padding, len ≤ MAX_CONTENTS_LEN))
  | .arrive _ => inferInstanceAs (Decidable True)

instance AllFit.decidable : (l : Link) → (events : List Event) → Decidable (l.AllFit events)
  | _, [] => inferInstanceAs (Decidable True)
  | l, e :: events =>
    have := AllFit.decidable (l.step e) events
    inferInstanceAs (Decidable (_ ∧ _))

end

end Link

section

variable [Ciphers] {s : Bip324Cipher} {aad : List UInt8} {packets more : List Packet} {ch : V2Channel}
  {rest : List UInt8}

theorem sent_append (s : Bip324Cipher) (aad : List UInt8) (packets more : List Packet) (h : packets = [] → aad = []) :
    sent s aad (packets ++ more) = sent s aad packets ++ sent (sender_after s aad packets) [] more := by
  induction packets generalizing s aad with
  | nil =>
    obtain rfl := h rfl
    rfl
  | cons p packets ih => rw [List.cons_append, sent, sent, ih _ _ fun _ => rfl, List.append_assoc, sender_after]

theorem sender_after_append (s : Bip324Cipher) (aad : List UInt8) (packets more : List Packet)
    (h : packets = [] → aad = []) :
    sender_after s aad (packets ++ more) = sender_after (sender_after s aad packets) [] more := by
  induction packets generalizing s aad with
  | nil =>
    obtain rfl := h rfl
    rfl
  | cons p packets ih => rw [List.cons_append, sender_after, ih _ _ fun _ => rfl, sender_after]

theorem Pending.append (h : Pending s [] packets ch rest) (more : List Packet) :
    Pending s [] (packets ++ more) ch (rest ++ sent (sender_after s [] packets) [] more) := by
  refine ⟨h.terminator, h.packet, ?_⟩
  rcases h.place with ⟨hlen, hl, hbuf⟩ | ⟨p, back, rfl, hlen, hmax, hl, hbuf⟩
  · left
    rw [sent_append _ _ _ _ fun _ => rfl, ← hbuf, List.append_assoc]
    exact ⟨hlen, hl, rfl⟩
  · right
    refine ⟨p, back ++ more, rfl, hlen, hmax, hl, ?_⟩
    rw [sent_append _ _ _ _ fun _ => rfl, ← List.append_assoc, hbuf, List.append_assoc]
    rfl

structure PeerSession.Queues (session session' : PeerSession) (more : List Packet) : Prop where
  buf : session'.send_buf = session.send_buf ++ sent session.channel.cipher [] more
  cipher : session'.channel.cipher = sender_after session.channel.cipher [] more
  small : ∀ p ∈ more, p.contents.length ≤ MAX_CONTENTS_LEN

namespace PeerSession

variable {session session' session'' : PeerSession}

theorem Queues.refl (session : PeerSession) : session.Queues session [] :=
  ⟨by rw [sent, List.append_nil], rfl, by simp⟩

theorem Queues.trans (h : session.Queues session' packets) (h' : session'.Queues session'' more) :
    session.Queues session'' (packets ++ more) where
  buf := by rw [h'.buf, h.buf, h.cipher, sent_append _ _ _ _ fun _ => rfl, List.append_assoc]
  cipher := by rw [h'.cipher, h.cipher, sender_after_append _ _ _ _ fun _ => rfl]
  small p hp := (List.mem_append.mp hp).elim (h.small p) (h'.small p)

theorem inject_decoy_queues (session : PeerSession) :
    ∃ more, session.Queues session.inject_decoy more ∧ more.filterMap Packet.message = [] := by
  unfold inject_decoy
  dsimp only
  split_ifs
  · refine ⟨[⟨List.replicate (xorshift session.decoy_rng % 2049).toNat 0, true⟩], ⟨?_, rfl, ?_⟩, rfl⟩
    · rw [sent, sent, List.append_nil]
      rfl
    · rw [List.forall_mem_singleton, List.length_replicate, BitVec.toNat_umod]
      exact (Nat.mod_lt _ (by decide)).le.trans (by decide)
  · exact ⟨[], ⟨by rw [sent, List.append_nil], rfl, by simp⟩, rfl⟩

theorem pad_queues (session : PeerSession) (h : ∀ len, session.padding = some len → len ≤ MAX_CONTENTS_LEN) :
    ∃ more, session.Queues session.pad more ∧ more.filterMap Packet.message = [] := by
  unfold pad
  cases hpad : session.padding with
  | none => exact ⟨[], Queues.refl session, rfl⟩
  | some len =>
    refine ⟨[⟨List.replicate len 0, true⟩], ⟨?_, rfl, ?_⟩, rfl⟩
    · rw [sent, sent, List.append_nil]
      rfl
    · rw [List.forall_mem_singleton, List.length_replicate]
      exact h len hpad

theorem send_queues {message : Wire.Message} {command : Command}
    (hc : Command.new message.command_name = some command)
    (hroom : session.send_buf.length + ((encode_message_type command.name ++ message.encode).length + EXPANSION) ≤
      session.send_budget) (hsmall : (encode_message_type command.name ++ message.encode).length ≤ MAX_CONTENTS_LEN) :
    (session.send message).1 = .ok () ∧ ∃ more, session.Queues (session.send message).2 more ∧
      more.filterMap Packet.message = [(message.command_name, message.encode)] := by
  have hname := (Command.name_of_new hc).1
  set frame := session.channel.encode_message command.name message.encode with hframe
  have hlen : frame.1.length = (encode_message_type command.name ++ message.encode).length + EXPANSION :=
    Bip324Cipher.length_encrypt_packet _ _ _ _
  have hsend : session.send message =
      (.ok (), inject_decoy { session with channel := frame.2, send_buf := session.send_buf ++ frame.1 }) := by
    rw [send, hc]
    simp only [← hframe]
    rw [if_neg (by rw [hlen]; omega)]
  have hqueue : session.Queues { session with channel := frame.2, send_buf := session.send_buf ++ frame.1 }
      [⟨encode_message_type command.name ++ message.encode, false⟩] := by
    refine ⟨?_, rfl, ?_⟩
    · rw [sent, sent, List.append_nil]
      rfl
    · rw [List.forall_mem_singleton]
      exact hsmall
  obtain ⟨more, hmore, hnone⟩ :=
    inject_decoy_queues { session with channel := frame.2, send_buf := session.send_buf ++ frame.1 }
  rw [hsend]
  refine ⟨rfl, _, hqueue.trans hmore, ?_⟩
  have hmessage : Packet.message ⟨encode_message_type command.name ++ message.encode, false⟩ =
      some (message.command_name, message.encode) := by
    rw [hname]
    exact decode_encode_message_type hc message.encode
  rw [List.filterMap_append, hnone, List.filterMap_cons_some hmessage]
  rfl

end PeerSession

namespace Link

structure Joined (l : Link) (s : Bip324Cipher) (packets : List Packet) (ch : V2Channel) : Prop where
  receiver : l.receiver = .ok ch
  pending : Pending s [] packets ch (l.wire ++ l.sender.send_buf)
  aad : ch.recv_aad.getD [] = []
  version : ch.saw_version = true
  short : ch.recv_buf.length < wanted ch
  sender : sender_after s [] packets = l.sender.channel.cipher
  small : ∀ p ∈ packets, p.contents.length ≤ MAX_CONTENTS_LEN
  messages : l.delivered ++ heard true packets = l.accepted

variable {l : Link}

theorem Fresh.joined (h : l.Fresh ch) : l.Joined l.sender.channel.cipher [] ch where
  receiver := h.receiver
  pending := ⟨h.terminator, h.paired.packet, .inl ⟨h.len, h.paired.length, by rw [h.buf, h.wire, h.queue]; rfl⟩⟩
  aad := h.aad
  version := h.version
  short := by
    rw [h.buf, wanted, h.len]
    decide
  sender := rfl
  small := by simp
  messages := by rw [h.delivered, h.accepted]; rfl

theorem Joined.queue (h : l.Joined s packets ch) {sender : PeerSession} {accepted : List Named}
    (hq : l.sender.Queues sender more) (haccepted : accepted = l.accepted ++ more.filterMap Packet.message) :
    Joined { l with sender := sender, accepted := accepted } s (packets ++ more) ch where
  receiver := h.receiver
  pending := by
    have hp := h.pending.append more
    rw [h.sender, List.append_assoc, ← hq.buf] at hp
    exact hp
  aad := h.aad
  version := h.version
  short := h.short
  sender := by rw [sender_after_append _ _ _ _ fun _ => rfl, h.sender, hq.cipher]
  small p hp := (List.mem_append.mp hp).elim (h.small p) (hq.small p)
  messages := by
    have hm := h.messages
    rw [heard] at hm
    rw [haccepted, ← hm, heard, List.filterMap_append, List.append_assoc]

theorem Joined.step (h : l.Joined s packets ch) {e : Event} (hfit : l.Fits e) :
    ∃ s' packets' ch', (l.step e).Joined s' packets' ch' := by
  cases e with
  | send message =>
    cases hc : Command.new message.command_name with
    | none =>
      have hstep : l.step (.send message) = l := by
        simp only [Link.step, PeerSession.send, hc, List.append_nil]
      rw [hstep]
      exact ⟨s, packets, ch, h⟩
    | some command =>
      obtain ⟨hroom, hsmall⟩ := hfit command hc
      obtain ⟨hok, more, hq, hmore⟩ := PeerSession.send_queues hc hroom hsmall
      have hstep : l.step (.send message) = { l with
          sender := (l.sender.send message).2
          accepted := l.accepted ++ [(message.command_name, message.encode)] } := by
        simp only [Link.step, hok]
      rw [hstep]
      exact ⟨s, _, ch, h.queue hq (by rw [hmore])⟩
  | flush written =>
    obtain ⟨more, hq, hmore⟩ := l.sender.pad_queues hfit
    have hj := h.queue hq
      (show l.accepted = l.accepted ++ more.filterMap Packet.message by rw [hmore, List.append_nil])
    refine ⟨s, packets ++ more, ch, hj.receiver, ?_, hj.aad, hj.version, hj.short, hj.sender, hj.small, hj.messages⟩
    have hp := hj.pending
    simp only [Link.step, PeerSession.flush, List.append_assoc, List.take_append_drop]
    exact hp
  | arrive count =>
    have hp : Pending s [] packets ch (l.wire.take count ++ (l.wire.drop count ++ l.sender.send_buf)) := by
      rw [← List.append_assoc, List.take_append_drop]
      exact h.pending
    have hfit : ∀ p ∈ packets, p.contents.length < 2 ^ 24 := fun p hp => (h.small p hp).trans_lt (by decide)
    rcases hp.more.drain h.aad hfit (Nat.lt_succ_self _) with
      ⟨⟨p, hp, hbig⟩, -⟩ | ⟨outs, ch', s', aad', back, hok, hshort, hr⟩
    · exact absurd (h.small p hp) (Nat.not_le.mpr hbig)
    · obtain rfl := hr.cleared (.inl rfl)
      have hstep : l.step (.arrive count) = { l with
          wire := l.wire.drop count, receiver := .ok ch', delivered := l.delivered ++ outs } := by
        have hfeed : ch.feed (l.wire.take count) = .ok (outs, ch') := hok
        simp only [Link.step, h.receiver, hfeed]
      rw [hstep]
      refine ⟨s', back, ch', rfl, hr.pending, hr.expected, hr.version (.inl h.version), hshort,
        hr.after.trans h.sender, ?_, ?_⟩
      · exact fun p hp => h.small p (hr.kept.mem hp)
      · have hheard := hr.heard
        rw [hr.version (.inl h.version), h.version] at hheard
        rw [List.append_assoc, hheard]
        exact h.messages

theorem Joined.run (h : l.Joined s packets ch) {events : List Event} (hfit : l.AllFit events) :
    ∃ s' packets' ch', (l.run events).Joined s' packets' ch' := by
  induction events generalizing l s packets ch with
  | nil => exact ⟨s, packets, ch, h⟩
  | cons e events ih =>
    obtain ⟨s', packets', ch', h'⟩ := h.step hfit.1
    exact ih h' hfit.2

/-- While every packet fits, the receiver never fails, gives the accepted messages in order, and has given all of them
once nothing is under way. -/
theorem link_delivers (h : l.Fresh ch) {events : List Event} (hfit : l.AllFit events) :
    (∃ ch', (l.run events).receiver = .ok ch') ∧ (l.run events).delivered <+: (l.run events).accepted ∧
      ((l.run events).wire = [] → (l.run events).sender.send_buf = [] →
        (l.run events).delivered = (l.run events).accepted) := by
  obtain ⟨s', packets, ch', hj⟩ := h.joined.run hfit
  refine ⟨⟨ch', hj.receiver⟩, ⟨_, hj.messages⟩, ?_⟩
  intro hwire hbuf
  have hp := hj.pending
  rw [hwire, hbuf, List.append_nil] at hp
  obtain rfl := hp.finished hj.short
  rw [← hj.messages, heard]
  simp

end Link

end

section

attribute [local instance] Ciphers.sample

def sample_channel (cipher : Bip324Cipher) : V2Channel := ⟨cipher, [], none, [], none, true, true⟩

def sample_link (budget : ℕ) : Link :=
  ⟨⟨sample_channel sample_sender, [], budget, 1, 4, 0⟩, [], .ok (sample_channel sample_receiver), [], []⟩

theorem sample_link_fresh (budget : ℕ) : (sample_link budget).Fresh (sample_channel sample_receiver) :=
  ⟨rfl, ⟨rfl, rfl⟩, rfl, rfl, rfl, rfl, rfl, rfl, rfl, rfl, rfl⟩

def sample_events : List Event := [.send (.Ping 7), .flush 10, .arrive 4, .send .Verack, .flush 100, .arrive 100]

theorem link_delivers_sample :
    (∃ ch', ((sample_link 100).run sample_events).receiver = .ok ch') ∧
      ((sample_link 100).run sample_events).delivered <+: ((sample_link 100).run sample_events).accepted := by
  have h := @Link.link_delivers _ _ _ (sample_link_fresh 100) sample_events (by decide)
  exact ⟨h.1, h.2.1⟩

theorem refused_send_spoils :
    (sample_link 32).Fresh (sample_channel sample_receiver) ∧
    ((sample_link 32).sender.send .Verack).1 = .error .SendBudget ∧
    ((sample_link 32).run [.send .Verack, .send (.Ping 7), .flush 32, .arrive 32]).accepted =
      [("ping", (Wire.Message.Ping 7).encode)] ∧
    ((sample_link 32).run [.send .Verack, .send (.Ping 7), .flush 32, .arrive 32]).receiver =
      .error "packet contents too large" :=
  ⟨sample_link_fresh 32, by decide, by decide, by decide⟩

end

end AvilaNode.V2
