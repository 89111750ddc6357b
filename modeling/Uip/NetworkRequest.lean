import Uip.NetworkState

/-! A host asks its relay for the record of a third peer. Two hosts exchange control messages
over the connection between them, in any order of delivery, while other hosts send them
control messages too. -/
namespace Uip.NetworkState
open TransitionSystem

structure Exchange where
  asker : NetworkState
  relay : NetworkState
  toRelay : List Bytes
  toAsker : List Bytes

inductive ExchangeEvent
  | request
  | askerSends (message : Message)
  | relaySends (message : Message)
  | askerReceives (n : ℕ)
  | relayReceives (n : ℕ)
  | askerOther (hostId : Identifier) (data : Bytes)
  | relayOther (hostId : Identifier) (data : Bytes)
  deriving DecidableEq

/-- `send_control_message`: a message that cannot be serialised is not queued. -/
def sendControlMessage (frames : List Bytes) (data : Option Bytes) : List Bytes :=
  frames ++ data.toList

def replyFrame (pack : MessagePack) (reply : Option Reply) : Option Bytes :=
  reply.bind fun r => sendPeerInfo pack r.peer

/-- The asker's `request_peer_info(b)`, both deliver tasks, and what else they may receive. -/
def exchangeStep (pack : MessagePack) (b : Identifier) (s : Exchange) :
    ExchangeEvent → Option Exchange
  | .request =>
    if s.asker.requestPeerInfo b = some ⟨s.relay.id, b⟩ then
      some { s with toRelay := sendControlMessage s.toRelay (sendPeerInfoRequest pack b) }
    else none
  | .askerSends message =>
    some { s with
      toRelay := sendControlMessage s.toRelay (pack.serializeToMsgpck message []) }
  | .relaySends message =>
    some { s with
      toAsker := sendControlMessage s.toAsker (pack.serializeToMsgpck message []) }
  | .askerReceives n =>
    (s.toAsker[n]?).bind fun data =>
      (s.asker.processControlMessage pack s.relay.id data).map fun r =>
        { s with
          asker := r.1
          toAsker := s.toAsker.eraseIdx n
          toRelay := sendControlMessage s.toRelay (replyFrame pack r.2) }
  | .relayReceives n =>
    (s.toRelay[n]?).bind fun data =>
      (s.relay.processControlMessage pack s.asker.id data).map fun r =>
        { s with
          relay := r.1
          toRelay := s.toRelay.eraseIdx n
          toAsker := sendControlMessage s.toAsker (replyFrame pack r.2) }
  | .askerOther hostId data =>
    if hostId = s.relay.id then none
    else (s.asker.processControlMessage pack hostId data).map fun r => { s with asker := r.1 }
  | .relayOther hostId data =>
    if hostId = s.asker.id then none
    else (s.relay.processControlMessage pack hostId data).map fun r => { s with relay := r.1 }

def exchangeMachine (pack : MessagePack) (b : Identifier) : Machine Exchange ExchangeEvent where
  init s := s.asker.id ≠ s.relay.id ∧ s.toRelay = [] ∧ s.toAsker = []
  step := exchangeStep pack b

variable {pack : MessagePack} {b : Identifier}

/-- Both hosts change by the control messages they process, and by nothing else. -/
theorem exchange_hosts {s t : Exchange} {e : ExchangeEvent}
    (h : (exchangeMachine pack b).step s e = some t) :
    (t.asker = s.asker ∨ ∃ hostId data reply,
      (hostId = s.relay.id ∨ e = .askerOther hostId data) ∧
        s.asker.processControlMessage pack hostId data = some (t.asker, reply)) ∧
    (t.relay = s.relay ∨ ∃ hostId data reply,
      s.relay.processControlMessage pack hostId data = some (t.relay, reply)) := by
  cases e with
  | request =>
    simp only [exchangeMachine, exchangeStep, Option.ite_none_right_eq_some,
      Option.some.injEq] at h
    rw [← h.2]
    exact ⟨.inl rfl, .inl rfl⟩
  | askerSends | relaySends =>
    rw [← Option.some.inj h]
    exact ⟨.inl rfl, .inl rfl⟩
  | askerReceives n =>
    obtain ⟨data, _, hd⟩ := Option.bind_eq_some_iff.mp h
    obtain ⟨r, hr, rfl⟩ := Option.map_eq_some_iff.mp hd
    exact ⟨.inr ⟨_, data, r.2, .inl rfl, hr⟩, .inl rfl⟩
  | relayReceives n =>
    obtain ⟨data, _, hd⟩ := Option.bind_eq_some_iff.mp h
    obtain ⟨r, hr, rfl⟩ := Option.map_eq_some_iff.mp hd
    exact ⟨.inl rfl, .inr ⟨_, data, r.2, hr⟩⟩
  | askerOther hostId data =>
    simp only [exchangeMachine, exchangeStep, Option.ite_none_left_eq_some,
      Option.map_eq_some_iff] at h
    obtain ⟨_, r, hr, rfl⟩ := h
    exact ⟨.inr ⟨hostId, data, r.2, .inr rfl, hr⟩, .inl rfl⟩
  | relayOther hostId data =>
    simp only [exchangeMachine, exchangeStep, Option.ite_none_left_eq_some,
      Option.map_eq_some_iff] at h
    obtain ⟨_, r, hr, rfl⟩ := h
    exact ⟨.inl rfl, .inr ⟨hostId, data, r.2, hr⟩⟩

theorem exchange_relay_id {s t : Exchange} {e : ExchangeEvent}
    (h : (exchangeMachine pack b).step s e = some t) : t.relay.id = s.relay.id := by
  rcases (exchange_hosts h).2 with hsame | ⟨hostId, data, reply, hr⟩
  · rw [hsame]
  · exact (processControlMessage_frame hr).1

/-- A step changes the asker's record of `b` only by a message that `b` itself sent: one that
comes over the connection if the relay is `b`, else one of another host. -/
theorem exchange_getPeer {s t : Exchange} {e : ExchangeEvent} (hb : b ≠ s.relay.id)
    (ho : ∀ hostId data, e = .askerOther hostId data → ownRecord pack b hostId data = none)
    (h : (exchangeMachine pack b).step s e = some t) :
    t.asker.pib.getPeer b = s.asker.pib.getPeer b := by
  rcases (exchange_hosts h).1 with hsame | ⟨hostId, data, reply, hfrom, hr⟩
  · rw [hsame]
  · have hnone : ownRecord pack b hostId data = none := by
      rcases hfrom with rfl | he
      · rw [Option.eq_none_iff_forall_ne_some]
        intro peer hp
        exact hb (ownRecord_eq_some.mp hp).1.symm
      · exact ho hostId data he
    rw [processControlMessage_getPeer hr b, hnone, Option.none_or]

/-- The relay answers a request with the record it holds. -/
theorem relay_answers {s t : Exchange} {n : ℕ} {data : Bytes} {peer : Peer}
    (h : (exchangeMachine pack b).step s (.relayReceives n) = some t)
    (hn : s.toRelay[n]? = some data)
    (hd : pack.deserializeFromMsgpck data = some (.peerInfoRequest b))
    (hp : s.relay.pib.getPeer b = some peer) :
    t.toAsker = sendControlMessage s.toAsker (sendPeerInfo pack peer) := by
  obtain ⟨data', hn', hm⟩ := Option.bind_eq_some_iff.mp h
  obtain rfl := Option.some.inj (hn.symm.trans hn')
  obtain ⟨r, hr, rfl⟩ := Option.map_eq_some_iff.mp hm
  simp only [processControlMessage, hd, hp, Option.some.injEq] at hr
  rw [← hr]
  rfl

/-- A record that a relay passes on is not taken over: whatever the order of delivery, the
relay answers with its record of `b`, and the asker keeps the record of `b` that it had. -/
theorem relayed_record_ignored (r : Run (exchangeMachine pack b))
    (hb : b ≠ r.start.relay.id)
    (hother : ∀ x ∈ r.transitions, ∀ hostId data, x.label = .askerOther hostId data →
      ownRecord pack b hostId data = none) :
    (∀ x ∈ r.transitions, ∀ n data peer, x.label = .relayReceives n →
      x.source.toRelay[n]? = some data →
      pack.deserializeFromMsgpck data = some (.peerInfoRequest b) →
      x.source.relay.pib.getPeer b = some peer →
      x.target.toAsker = sendControlMessage x.source.toAsker (sendPeerInfo pack peer)) ∧
    r.final.asker.pib.getPeer b = r.start.asker.pib.getPeer b := by
  constructor
  · intro x hx n data peer hl hn hd hp
    have hstep := r.path.step_of_mem hx
    rw [hl] at hstep
    exact relay_answers hstep hn hd hp
  · have hinv := r.path.invariant
      (P := fun s => s.relay.id = r.start.relay.id ∧
        s.asker.pib.getPeer b = r.start.asker.pib.getPeer b)
      (G := fun _ e => ∀ hostId data, e = .askerOther hostId data →
        ownRecord pack b hostId data = none) (fun s e t hs ho hstep => ?_) ⟨rfl, rfl⟩ hother
    · exact hinv.1.2
    · obtain ⟨hid, hpeer⟩ := hs
      constructor
      · rw [exchange_relay_id hstep, hid]
      · rw [exchange_getPeer (hid ▸ hb) ho hstep, hpeer]

section ThirdPeer

def askingHost : Identifier := ⟨Vector.replicate 32 1⟩
def relayHost : Identifier := ⟨Vector.replicate 32 2⟩
def thirdHost : Identifier := ⟨Vector.replicate 32 3⟩

def exchangePack : MessagePack :=
  .ofTable [writeRequest thirdHost, writePeerInfo thirdHost [relayHost, askingHost]]

/-- The asker knows of the third host only its relay; the relay has a newer record. -/
def exchangeStart : Exchange where
  asker := ⟨askingHost, PeerInformationBase.new.addPeer thirdHost ⟨thirdHost, [], [relayHost]⟩,
    [], 7⟩
  relay := ⟨relayHost, PeerInformationBase.new.addPeer thirdHost
    ⟨thirdHost, [], [relayHost, askingHost]⟩, [], 7⟩
  toRelay := []
  toAsker := []

theorem exchangeStart_init : (exchangeMachine exchangePack thirdHost).init exchangeStart :=
  ⟨by decide, rfl, rfl⟩

/-- The request and its answer are delivered, and the asker does not hold the relay's record. -/
theorem relayed_record_lost :
    ∃ r : Run (exchangeMachine exchangePack thirdHost),
      r.transitions.map Transition.label = [.request, .relayReceives 0, .askerReceives 0] ∧
      thirdHost ≠ r.start.relay.id ∧ thirdHost ≠ r.start.asker.id ∧
      r.start.asker.requestPeerInfo thirdHost = some ⟨r.start.relay.id, thirdHost⟩ ∧
      r.start.relay.pib.getPeer thirdHost = some ⟨thirdHost, [], [relayHost, askingHost]⟩ ∧
      r.final.toRelay = [] ∧ r.final.toAsker = [] ∧
      r.final.asker.pib.getPeer thirdHost ≠ some ⟨thirdHost, [], [relayHost, askingHost]⟩ := by
  obtain ⟨t, ht, hp⟩ := (Option.any_eq_true ..).mp
    (show (exec (exchangeMachine exchangePack thirdHost) exchangeStart
      [.request, .relayReceives 0, .askerReceives 0]).any (fun t => decide (t.toRelay = [] ∧
        t.toAsker = [] ∧ t.asker.pib.getPeer thirdHost ≠
          some ⟨thirdHost, [], [relayHost, askingHost]⟩)) = true by decide +kernel)
  obtain ⟨r, hs, hf, hl⟩ := exec_run exchangeStart_init ht
  rw [← hf] at hp
  refine ⟨r, hl, ?_, ?_, ?_, ?_, of_decide_eq_true hp⟩ <;> rw [hs] <;> decide

/-- In the run of the request and its answer, the asker keeps its record. -/
theorem relayed_record_ignored_third :
    ∃ r : Run (exchangeMachine exchangePack thirdHost),
      r.transitions.map Transition.label = [.request, .relayReceives 0, .askerReceives 0] ∧
      r.final.asker.pib.getPeer thirdHost = some ⟨thirdHost, [], [relayHost]⟩ := by
  obtain ⟨t, ht⟩ := Option.isSome_iff_exists.mp
    (show (exec (exchangeMachine exchangePack thirdHost) exchangeStart
      [.request, .relayReceives 0, .askerReceives 0]).isSome by decide +kernel)
  obtain ⟨r, hs, _, hl⟩ := exec_run exchangeStart_init ht
  refine ⟨r, hl, ?_⟩
  rw [(relayed_record_ignored r (by rw [hs]; decide) ?_).2, hs]
  · decide
  · intro x hx hostId data hlabel
    have hmem := List.mem_map_of_mem (f := Transition.label) hx
    rw [hl, hlabel] at hmem
    simp at hmem

end ThirdPeer

end Uip.NetworkState
