import Uip.TransportSocket

/-! What one step of a transport socket can change: of each endpoint, of the connections map and
the data channel, and at the demultiplexer. -/
namespace Uip.Transport

variable {tls : Tls}

/-- What a connection keeps as long as its tasks run. -/
structure Connection.Continues (c d : Connection tls) : Prop where
  remoteId : d.remoteId = c.remoteId
  session : d.session = c.session
  readTask : c.readTask = .ended → d.readTask = .ended
  writeTask : c.writeTask = .ended → d.writeTask = .ended
  stream : d.stream = true → c.stream = true

theorem Connection.Continues.next {c : Connection tls} {e : ConnectionEvent} (h : c.enabled e) :
    c.Continues (c.next e) :=
  ⟨c.next_remoteId e, c.next_session e, Connection.next_readTask_ended h,
    Connection.next_writeTask_ended h, fun hs => (c.next_stream e) ▸ hs⟩

theorem Connection.Continues.alive {c d : Connection tls} (h : c.Continues d) (hd : d.alive) :
    c.alive :=
  ⟨fun hr => hd.1 (h.readTask hr), fun hw => hd.2 (h.writeTask hw)⟩

theorem delivery_hostId {c : Connection tls} {d : Delivery} (h : c.delivery = some d) :
    d.hostId = c.remoteId := by
  unfold Connection.delivery at h
  cases hr : c.readTask <;> simp only [hr, Option.some.injEq, reduceCtorEq] at h
  rw [← h]

theorem readTask_of_delivery {c : Connection tls} {d : Delivery} (h : c.delivery = some d) :
    c.readTask ≠ .ended := by
  intro hr
  simp [Connection.delivery, hr] at h

theorem delivery_of_next {c : Connection tls} {e : ConnectionEvent} (he : c.enabled e)
    (h : (c.next e).delivery.isSome = true) : c.delivery.isSome = true ∨
      ∃ srcPort dstPort data, e = .frame (.data srcPort dstPort data) := by
  cases e with
  | frame f =>
    cases f with
    | data srcPort dstPort data => exact .inr ⟨srcPort, dstPort, data, rfl⟩
    | ping | pong => cases h
  | pong | pongFailed | timeout | decodeError | endOfStream => cases h
  | _ => exact .inl h

/-- An endpoint that holds a connection of the demultiplexer. -/
def Endpoint.live : Endpoint tls → Prop
  | .none => False
  | .opening .. => True
  | .connection c => c.stream = true

namespace Socket

variable {s : Socket tls} {e : SocketEvent tls}

def handsData (e : SocketEvent tls) (q : ℕ) : Prop :=
  ∃ srcPort dstPort data, e = .connection q (.frame (.data srcPort dstPort data))

/-- What a step can do to one endpoint. -/
inductive EndpointStep (s : Socket tls) (e : SocketEvent tls) (q : ℕ) : Endpoint tls → Prop
  | same : EndpointStep s e q (s.endpoints q)
  | accepted (session : Session tls) (id : Identifier) (event : e = .accepted q session)
      (known : idFromConnection session = some id) :
      EndpointStep s e q (.connection (.fromTlsStream session id))
  | opening (id : Identifier) (address : SocketAddrV6) (event : e = .openConnection id address)
      (fresh : q = s.io.nextQueue) : EndpointStep s e q (.opening id address)
  | failed (event : e = .openFailed q) (opening : (s.endpoints q).isOpening = true) :
      EndpointStep s e q .none
  | opened (session : Session tls) (id : Identifier) (address : SocketAddrV6)
      (event : e = .opened q session) (opening : s.endpoints q = .opening id address) :
      EndpointStep s e q (.connection (.fromTlsStream session id))
  | continues (c d : Connection tls) (old : s.endpoints q = .connection c)
      (keeps : c.Continues d)
      (delivery : d.delivery.isSome = true → c.delivery.isSome = true ∨ handsData e q) :
      EndpointStep s e q (.connection d)

theorem next_endpoints (s : Socket tls) (e : SocketEvent tls) :
    (s.next e).endpoints = (s.effect e).endpoints := rfl

theorem EndpointStep.update {p : ℕ} {endpoint : Endpoint tls} (h : EndpointStep s e p endpoint)
    (q : ℕ) : EndpointStep s e q ((s.updateEndpoint p endpoint).endpoints q) := by
  by_cases hq : q = p
  · subst hq
    simpa only [updateEndpoint, Function.update_self] using h
  · simp only [updateEndpoint, Function.update_of_ne hq]
    exact .same

theorem EndpointStep.map {p : ℕ} {f : Connection tls → Connection tls}
    (hf : ∀ c, s.endpoints p = .connection c → c.Continues (f c) ∧
      ((f c).delivery.isSome = true → c.delivery.isSome = true ∨ handsData e p)) :
    EndpointStep s e p ((s.endpoints p).map f) := by
  cases hp : s.endpoints p with
  | connection c => exact .continues c (f c) hp (hf c hp).1 (hf c hp).2
  | none | opening id address =>
    simp only [Endpoint.map, ← hp]
    exact .same

theorem next_endpoint (he : s.enabled e) (q : ℕ) : EndpointStep s e q ((s.next e).endpoints q) := by
  obtain ⟨hadmits, -⟩ := he
  rw [next_endpoints]
  cases e with
  | reader | accept | openRead | take | dropReceiver | close => exact .same
  | accepted p session =>
    obtain ⟨id, hid⟩ := Option.isSome_iff_exists.mp hadmits
    simp only [effect, Socket.accepted, hid]
    exact EndpointStep.update (.accepted session id rfl hid) q
  | register p =>
    simp only [effect, Socket.register]
    split <;> exact .same
  | openConnection id address =>
    exact EndpointStep.update (.opening id address rfl rfl) q
  | openFailed p => exact EndpointStep.update (.failed rfl hadmits) q
  | opened p session =>
    simp only [effect, Socket.opened]
    cases hp : s.endpoints p with
    | opening id address => exact EndpointStep.update (.opened session id address rfl hp) q
    | none | connection => exact .same
  | receive p d frames =>
    apply EndpointStep.update (EndpointStep.map _) q
    exact fun c _ => ⟨⟨rfl, rfl, id, id, id⟩, .inl⟩
  | connection p e =>
    apply EndpointStep.update (EndpointStep.map _) q
    intro c hc
    simp only [admits, hc, Endpoint.satisfies] at hadmits
    refine ⟨Connection.Continues.next hadmits, fun hd => ?_⟩
    rcases delivery_of_next hadmits hd with hold | ⟨srcPort, dstPort, data, rfl⟩
    · exact .inl hold
    · exact .inr ⟨srcPort, dstPort, data, rfl⟩
  | deliver p =>
    have hp := hadmits.2.2
    cases hc : s.endpoints p with
    | connection c =>
      rw [hc] at hp
      obtain ⟨d, hd⟩ := Option.isSome_iff_exists.mp hp
      simp only [effect, Socket.deliver, hc, hd]
      apply EndpointStep.update (EndpointStep.map _) q
      intro c' hc'
      obtain rfl : c' = c := by simpa [hc] using hc'.symm
      refine ⟨⟨rfl, rfl, fun hr => absurd hr (readTask_of_delivery hd), id, id⟩, fun _ => ?_⟩
      simp [hd]
    | none | opening => simp [hc, Endpoint.satisfies] at hp
  | deliverClosed p =>
    apply EndpointStep.update (EndpointStep.map _) q
    exact fun c _ => ⟨⟨rfl, rfl, fun _ => rfl, id, id⟩, fun hd => by cases hd⟩
  | release p =>
    apply EndpointStep.update (EndpointStep.map _) q
    exact fun c _ => ⟨⟨rfl, rfl, id, id, by simp⟩, .inl⟩

theorem next_acceptor (s : Socket tls) (e : SocketEvent tls) :
    (s.next e).acceptor = e.onAcceptor.elim s.acceptor s.acceptor.next := rfl

theorem enabled_acceptor (he : s.enabled e) {a : AcceptEvent} (ha : e.onAcceptor = some a) :
    s.acceptor.enabled a := by
  have h := he.2
  rwa [ha] at h

theorem connection_of_next (he : s.enabled e) {q : ℕ} {d : Connection tls}
    (hd : (s.next e).endpoints q = .connection d) :
    (∃ c, s.endpoints q = .connection c ∧ c.Continues d) ∨
    (∃ session id, e = .accepted q session ∧ idFromConnection session = some id ∧
      d = .fromTlsStream session id) ∨
    ∃ session id address, e = .opened q session ∧ s.endpoints q = .opening id address ∧
      d = .fromTlsStream session id := by
  have hstep := next_endpoint he q
  generalize (s.next e).endpoints q = endpoint at hstep hd
  cases hstep with
  | same => exact .inl ⟨d, hd, rfl, rfl, id, id, id⟩
  | accepted session id event known =>
    exact .inr (.inl ⟨session, id, event, known, (Endpoint.connection.inj hd).symm⟩)
  | opening | failed => cases hd
  | opened session id address event opening =>
    exact .inr (.inr ⟨session, id, address, event, opening, (Endpoint.connection.inj hd).symm⟩)
  | continues c d' old keeps => exact .inl ⟨c, old, Endpoint.connection.inj hd ▸ keeps⟩

/-- The identifiers a step writes into the connections map, or clears from it. -/
theorem next_connections (he : s.enabled e) (x : Identifier) :
    (s.next e).connections.lookup x = s.connections.lookup x ∨
    (∃ q c, e = .register q ∧ s.endpoints q = .connection c ∧ c.remoteId = x ∧
      (s.next e).connections.lookup x = some q) ∨
    (e = .close ∧ (s.next e).connections.lookup x = none) := by
  cases e with
  | register q =>
    simp only [next, effect, Socket.register]
    cases hq : s.endpoints q with
    | connection c =>
      rw [HashMap.lookup_insert_if]
      by_cases hx : x = c.remoteId
      · exact .inr (.inl ⟨q, c, rfl, hq, hx.symm, if_pos hx⟩)
      · exact .inl (if_neg hx)
    | none | opening => exact .inl rfl
  | close => exact .inr (.inr ⟨rfl, AList.lookup_empty x⟩)
  | accepted q session =>
    left
    simp only [next, effect, Socket.accepted]
    split <;> rfl
  | opened q session =>
    left
    simp only [next, effect, Socket.opened]
    split <;> rfl
  | deliver q =>
    left
    simp only [next, effect, Socket.deliver]
    split
    · split <;> rfl
    · rfl
  | _ => exact .inl rfl

/-- A read task puts the tuple that its peer sent on the channel. -/
theorem next_deliver {q : ℕ} (he : s.enabled (.deliver q)) :
    ∃ c d, s.endpoints q = .connection c ∧ c.delivery = some d ∧
      (s.next (.deliver q)).delivered = s.delivered ++ [(c.session.peer, d)] ∧
      (s.next (.deliver q)).deliverFrame.items = s.deliverFrame.items ++ [d] := by
  obtain ⟨-, hroom, hq⟩ := he.1
  obtain ⟨c, hc, hd⟩ := Endpoint.satisfies_iff.mp hq
  obtain ⟨d, hd⟩ := Option.isSome_iff_exists.mp hd
  refine ⟨c, d, hc, hd, by simp only [next, effect, Socket.deliver, hc, hd], ?_⟩
  simpa only [next, effect, Socket.deliver, hc, hd] using BoundedQueue.push_items hroom d

/-- Only the read task of a connection puts a tuple on the channel, as one that its peer sent. -/
theorem next_channel (he : s.enabled e) :
    ((s.next e).delivered = s.delivered ∧
      (s.next e).deliverFrame.items.Sublist s.deliverFrame.items) ∨
    ∃ q c d, e = .deliver q ∧ s.endpoints q = .connection c ∧ c.delivery = some d ∧
      (s.next e).delivered = s.delivered ++ [(c.session.peer, d)] ∧
      (s.next e).deliverFrame.items = s.deliverFrame.items ++ [d] := by
  have hsame : (s.next e).delivered = s.delivered → (s.next e).deliverFrame = s.deliverFrame →
      (s.next e).delivered = s.delivered ∧
        (s.next e).deliverFrame.items.Sublist s.deliverFrame.items :=
    fun hd hf => ⟨hd, by rw [hf]⟩
  cases e with
  | deliver q =>
    obtain ⟨c, d, hc, hd, hdel, hitems⟩ := next_deliver he
    exact .inr ⟨q, c, d, rfl, hc, hd, hdel, hitems⟩
  | take d =>
    refine .inl ⟨rfl, ?_⟩
    have hpop := BoundedQueue.pop_items s.deliverFrame
    simp only [next, effect, hpop]
    exact List.tail_sublist _
  | dropReceiver => exact .inl ⟨rfl, List.nil_sublist _⟩
  | accepted q session =>
    left
    simp only [next, effect, Socket.accepted]
    split <;> exact ⟨rfl, .refl _⟩
  | opened q session =>
    left
    simp only [next, effect, Socket.opened]
    split <;> exact ⟨rfl, .refl _⟩
  | register q =>
    left
    simp only [next, effect, Socket.register]
    split <;> exact ⟨rfl, .refl _⟩
  | _ => exact .inl (hsame rfl rfl)

theorem enabled_accepted {q : ℕ} {session : Session tls} (he : s.enabled (.accepted q session)) :
    s.acceptor.task.owns = some q := by
  rw [show s.acceptor.task = _ from he.2]
  rfl

theorem openConnection_io (s : Socket tls) (id : Identifier) (address : SocketAddrV6) :
    (s.next (.openConnection id address)).io = s.io.next (.connect (.v6 address)) := rfl

theorem endpoint_none_next (he : s.enabled e) {q : ℕ} (hq : s.endpoints q = .none)
    (haccept : ∀ session, e ≠ .accepted q session)
    (hopen : ∀ id address, e = .openConnection id address → q ≠ s.io.nextQueue) :
    (s.next e).endpoints q = .none := by
  have hstep := next_endpoint he q
  generalize (s.next e).endpoints q = endpoint at hstep
  cases hstep with
  | same => exact hq
  | accepted session id event known => exact absurd event (haccept session)
  | opening id address event fresh => exact absurd fresh (hopen id address event)
  | failed => rfl
  | opened session id address event opening => cases hq.symm.trans opening
  | continues c d old => cases hq.symm.trans old

theorem live_of_next (he : s.enabled e) {q : ℕ} (hl : ((s.next e).endpoints q).live) :
    (s.endpoints q).live ∨ (∃ session, e = .accepted q session) ∨
      ∃ id address, e = .openConnection id address ∧ q = s.io.nextQueue := by
  have hstep := next_endpoint he q
  generalize (s.next e).endpoints q = endpoint at hstep hl
  cases hstep with
  | same => exact .inl hl
  | accepted session id event known => exact .inr (.inl ⟨session, event⟩)
  | opening id address event fresh => exact .inr (.inr ⟨id, address, event, fresh⟩)
  | failed => exact hl.elim
  | opened session id address event opening => exact .inl (by rw [opening]; trivial)
  | continues c d old keeps => exact .inl (by rw [old]; exact keeps.stream hl)

theorem next_io (s : Socket tls) (e : SocketEvent tls) :
    (s.next e).io = (e.onAcceptor.bind AcceptEvent.onIo).elim s.io s.io.next := by
  unfold io
  rw [next_acceptor]
  cases e.onAcceptor with
  | none => rfl
  | some a => exact Acceptor.next_io s.acceptor a

theorem enabled_io (he : s.enabled e) {i : Io.Event}
    (hi : e.onAcceptor.bind AcceptEvent.onIo = some i) : s.io.enabled i := by
  obtain ⟨a, ha, hai⟩ := Option.bind_eq_some_iff.mp hi
  exact Acceptor.enabled_io (enabled_acceptor he ha) hai

theorem io_next {P : Io.Socket → Prop} (h : P s.io)
    (hstep : ∀ i, e.onAcceptor.bind AcceptEvent.onIo = some i → P (s.io.next i)) :
    P (s.next e).io := by
  rw [next_io]
  cases hi : e.onAcceptor.bind AcceptEvent.onIo with
  | none => exact h
  | some i => exact hstep i hi

/-- Which steps are made at the demultiplexer, and by whom. -/
inductive OnIo : SocketEvent tls → Io.Event → Prop
  | reader {i : Io.Event} (ofReadTask : i.ofReadTask = true) : OnIo (.reader i) i
  | take (q : ℕ) : OnIo (.accept (.take q)) (.take q)
  | acceptRead (q : ℕ) (d : Io.Datagram) : OnIo (.accept (.read q d)) (.read q d)
  | abandon (q : ℕ) : OnIo (.accept (.abandon q)) (.drop q)
  | ended : OnIo (.accept .ended) .dropAcceptor
  | connect (id : Identifier) (address : SocketAddrV6) :
      OnIo (.openConnection id address) (.connect (.v6 address))
  | openRead (q : ℕ) (d : Io.Datagram) : OnIo (.openRead q d) (.read q d)
  | openFailed (q : ℕ) : OnIo (.openFailed q) (.drop q)
  | receive (q : ℕ) (d : Io.Datagram) (frames : List Frame) : OnIo (.receive q d frames) (.read q d)
  | release (q : ℕ) : OnIo (.release q) (.drop q)
  | close : OnIo .close .close

theorem onIo_of_enabled (he : s.enabled e) {i : Io.Event}
    (hi : e.onAcceptor.bind AcceptEvent.onIo = some i) : OnIo e i := by
  cases e with
  | reader j =>
    obtain rfl := Option.some.inj hi
    exact .reader he.1
  | accept a =>
    cases a with
    | io | finish | register => exact absurd he.1 (by simp [admits, AcceptEvent.handshaking])
    | take | read | abandon | ended =>
      obtain rfl := Option.some.inj hi
      constructor
    | await | eof => cases hi
  | openConnection | openRead | openFailed | receive | release | close =>
    obtain rfl := Option.some.inj hi
    constructor
  | accepted | register | opened | connection | deliver | deliverClosed | take | dropReceiver =>
    cases hi

theorem reader_of_onIo (he : s.enabled e) {i : Io.Event}
    (hi : e.onAcceptor.bind AcceptEvent.onIo = some i) (hr : i.ofReadTask = true) :
    e = .reader i := by
  cases onIo_of_enabled he hi with
  | reader => rfl
  | _ => cases hr

theorem dropped_of_next (he : s.enabled e) {q : ℕ}
    (hi : e.onAcceptor.bind AcceptEvent.onIo = some (.drop q)) :
    s.acceptor.task.owns = some q ∨ ¬ ((s.next e).endpoints q).live := by
  cases onIo_of_enabled he hi with
  | reader hr => cases hr
  | abandon =>
    left
    rw [he.2.1]
    rfl
  | openFailed =>
    right
    simp [next, effect, updateEndpoint, Endpoint.live]
  | release =>
    right
    simp only [next_endpoints, effect, updateConnection, updateEndpoint, Function.update_self]
    cases hq : s.endpoints q with
    | connection c => simp [Endpoint.map, Endpoint.live]
    | opening => exact absurd he.1 (by simp [admits, hq, Endpoint.satisfies])
    | none => exact id

theorem nextQueue_le (s : Socket tls) (e : SocketEvent tls) :
    s.io.nextQueue ≤ (s.next e).io.nextQueue :=
  io_next (P := fun io => s.io.nextQueue ≤ io.nextQueue) (Nat.le_refl _)
    fun i _ => s.io.nextQueue_le i

theorem held_of_next (he : s.enabled e) {q : ℕ} (hq : (s.next e).io.held q) :
    s.io.held q ∨ (q = s.io.nextQueue ∧ ∀ id address, e ≠ .openConnection id address) := by
  rw [next_io] at hq
  cases hi : e.onAcceptor.bind AcceptEvent.onIo with
  | none =>
    rw [hi] at hq
    exact .inl hq
  | some i =>
    rw [hi] at hq
    rcases Io.Socket.held_of_next (enabled_io he hi) hq with hold | ⟨rfl, remote, hnew⟩
    · exact .inl hold
    · refine .inr ⟨rfl, ?_⟩
      rintro id address rfl
      obtain rfl : Io.Event.connect (.v6 address) = i := Option.some.inj hi
      rw [(s.io.connect_fresh (.v6 address)).2] at hnew
      cases hnew

theorem next_origin (s : Socket tls) (e : SocketEvent tls) {q : ℕ} (hq : q < s.io.nextQueue) :
    ((s.next e).io.queues q).origin = (s.io.queues q).origin :=
  io_next (P := fun io => (io.queues q).origin = (s.io.queues q).origin) rfl
    fun i _ => s.io.next_origin i hq

end Socket

end Uip.Transport
