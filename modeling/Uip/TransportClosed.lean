import Uip.TransportOpenFailed

/-!
# Sockets that have been closed

`close` signals the read task of the demultiplexer and clears the connections map. Whatever else
works over the socket then goes on.
-/
namespace Uip.Io.Socket

variable {s : Socket} {e : Event}

theorem next_closeSent (s : Socket) (e : Event) :
    (s.next e).closeSent = true ↔ s.closeSent = true ∨ e = .close := by
  cases e with
  | datagram bytes remote =>
    simp only [next, lookup]
    split <;> simp [channel, updateQueue]
  | close => simp [next]
  | _ => simp [next, connect, channel, updateQueue]

end Uip.Io.Socket

namespace Uip.Transport
open TransitionSystem

variable {tls : Tls}

/-- A step that inserts a connection, writes a frame or passes data upstream. -/
def SocketEvent.acts : SocketEvent tls → Prop
  | .register _ => True
  | .connection _ (.written _) => True
  | .deliver _ => True
  | _ => False

def ActsClosed (x : Transition (Socket tls) (SocketEvent tls)) : Prop :=
  x.source.io.closeSent = true ∧ x.label.acts

/-- The tasks of the connection neither write nor, as long as somebody receives, deliver. -/
def Connection.stopped (c : Connection tls) (receiver : Bool) : Prop :=
  c.writeTask = .ended ∧ (receiver = true → c.delivery = none)

namespace Socket

/-- Neither the accept task nor a connection is left with something to do. -/
structure Stopped (s : Socket tls) : Prop where
  accept : ∀ q, s.acceptor.task ≠ .registering q
  connections : ∀ q c, s.endpoints q = .connection c → c.stopped s.receiver

/-- The step leaves a closed socket with nothing to do: it does not close one that has, does not
end a handshake of a closed one, and does not hand data of a closed one to a read task. -/
def closesQuietly (s : Socket tls) : SocketEvent tls → Prop
  | .close => s.Stopped
  | .accepted .. => s.io.closeSent = false
  | .opened .. => s.io.closeSent = false
  | .connection _ (.frame (.data ..)) => s.io.closeSent = true → s.receiver = false
  | _ => True

variable {s : Socket tls} {e : SocketEvent tls}

theorem close_of_onIo (he : s.enabled e)
    (hi : e.onAcceptor.bind AcceptEvent.onIo = some .close) : e = .close := by
  cases onIo_of_enabled he hi with
  | reader hr => cases hr
  | close => rfl

theorem closeSent_next (he : s.enabled e) :
    (s.next e).io.closeSent = true ↔ s.io.closeSent = true ∨ e = .close := by
  rw [next_io]
  cases hi : e.onAcceptor.bind AcceptEvent.onIo with
  | none =>
    refine ⟨.inl, fun h => h.elim id fun hclose => ?_⟩
    subst hclose
    cases hi
  | some i =>
    rw [Option.elim_some, Io.Socket.next_closeSent]
    refine or_congr_right ⟨fun hclose => ?_, fun hclose => ?_⟩
    · exact close_of_onIo he (hclose ▸ hi)
    · subst hclose
      exact (Option.some.inj hi).symm

theorem receiver_of_next (h : (s.next e).receiver = true) : s.receiver = true := by
  cases e with
  | dropReceiver => cases h
  | accepted q session =>
    simp only [next, effect, Socket.accepted] at h
    split at h <;> exact h
  | register q =>
    simp only [next, effect, Socket.register] at h
    split at h <;> exact h
  | opened q session =>
    simp only [next, effect, Socket.opened] at h
    split at h <;> exact h
  | deliver q =>
    simp only [next, effect, Socket.deliver] at h
    split at h
    · split at h <;> exact h
    · exact h
  | _ => exact h

theorem registering_of_next (he : s.enabled e) {q : ℕ}
    (h : (s.next e).acceptor.task = .registering q) :
    s.acceptor.task = .registering q ∨ ∃ session, e = .accepted q session := by
  cases e with
  | accepted p session =>
    obtain rfl := AcceptTask.registering.inj h
    exact .inr ⟨session, rfl⟩
  | accept a =>
    cases a with
    | io i => exact .inl h
    | finish p => exact absurd he.1 (by simp [admits, AcceptEvent.handshaking])
    | _ => cases h
  | register p => cases h
  | _ => exact .inl h

/-- A step that meets the guard leaves a socket that has been closed with nothing to do. -/
theorem stopped_next (h : s.io.closeSent = true → s.Stopped) (hg : s.closesQuietly e)
    (he : s.enabled e) (hc : (s.next e).io.closeSent = true) : (s.next e).Stopped := by
  have hs : s.Stopped := by
    rcases (closeSent_next he).mp hc with hsent | rfl
    · exact h hsent
    · exact hg
  have hopen : s.io.closeSent = false → e = .close := by
    intro hsent
    rcases (closeSent_next he).mp hc with hsent' | hclose
    · cases hsent.symm.trans hsent'
    · exact hclose
  refine ⟨fun q hq => ?_, fun q d hd => ?_⟩
  · rcases registering_of_next he hq with hold | ⟨session, rfl⟩
    · exact hs.accept q hold
    · cases hopen hg
  · have hstep := next_endpoint he q
    generalize (s.next e).endpoints q = endpoint at hstep hd
    cases hstep with
    | same =>
      obtain ⟨hwrite, hdelivery⟩ := hs.connections q d hd
      exact ⟨hwrite, fun hr => hdelivery (receiver_of_next hr)⟩
    | accepted session id event known =>
      subst event
      cases hopen hg
    | opening | failed => cases hd
    | opened session id address event opening =>
      subst event
      cases hopen hg
    | continues c d' old keeps delivery =>
      obtain rfl := Endpoint.connection.inj hd
      obtain ⟨hwrite, hdelivery⟩ := hs.connections q c old
      refine ⟨keeps.writeTask hwrite, fun hr => ?_⟩
      have hreceiver := receiver_of_next hr
      by_contra hsome
      rcases delivery (Option.ne_none_iff_isSome.mp hsome) with hold | ⟨src, dst, data, rfl⟩
      · rw [hdelivery hreceiver] at hold
        cases hold
      · rcases (closeSent_next he).mp hc with hsent | hclose
        · cases (hg hsent).symm.trans hreceiver
        · cases hclose

/-- A socket that is left with nothing to do does nothing. -/
theorem Stopped.not_acts (h : s.Stopped) (he : s.enabled e) : ¬ e.acts := by
  intro ha
  cases e with
  | register q => exact h.accept q he.2
  | connection q e =>
    obtain ⟨c, hc, hen⟩ := Endpoint.satisfies_iff.mp he.1
    have hwrite := (h.connections q c hc).1
    cases e with
    | written f => cases hwrite.symm.trans hen
    | _ => exact ha
  | deliver q =>
    obtain ⟨hreceiver, -, hq⟩ := he.1
    obtain ⟨c, hc, hd⟩ := Endpoint.satisfies_iff.mp hq
    rw [(h.connections q c hc).2 hreceiver] at hd
    cases hd
  | _ => exact ha

/-- From here the socket, which has been closed, can go on to act. -/
def CanAct (s : Socket tls) : Prop :=
  ∃ t trace, Path (socketMachine tls) s trace t ∧ ∃ x ∈ trace, ActsClosed x

theorem CanAct.of_enabled (hc : s.io.closeSent = true) (he : s.enabled e) (ha : e.acts) :
    s.CanAct :=
  ⟨s.next e, [⟨s, e, s.next e⟩], .single (guarded_step.mpr ⟨he, rfl⟩), ⟨s, e, s.next e⟩,
    List.mem_singleton.mpr rfl, hc, ha⟩

theorem CanAct.of_next (he : s.enabled e) (h : (s.next e).CanAct) : s.CanAct := by
  obtain ⟨t, trace, path, x, hx, hacts⟩ := h
  exact ⟨t, _, .cons (guarded_step.mpr ⟨he, rfl⟩) path, x, List.mem_cons_of_mem _ hx, hacts⟩

section Connections

variable {q : ℕ} {c : Connection tls}

theorem enabled_connection (hq : s.endpoints q = .connection c) {e : ConnectionEvent}
    (he : c.enabled e) : s.enabled (.connection q e) :=
  ⟨Endpoint.satisfies_iff.mpr ⟨c, hq, he⟩, trivial⟩

theorem next_connection (hq : s.endpoints q = .connection c) (e : ConnectionEvent) :
    (s.next (.connection q e)).endpoints q = .connection (c.next e) := by
  simp [next_endpoints, effect, updateConnection, updateEndpoint, hq, Endpoint.map]

theorem canAct_of_sending (hc : s.io.closeSent = true) (hq : s.endpoints q = .connection c)
    {f : Frame} (hf : c.writeTask = .sending f) : s.CanAct :=
  .of_enabled hc (enabled_connection hq (e := .written f) hf) trivial

theorem canAct_of_queued (hc : s.io.closeSent = true) (hq : s.endpoints q = .connection c)
    (hw : c.writeTask = .receiving) {f : Frame} (hf : c.sink.items.head? = some f) :
    s.CanAct := by
  have he : s.enabled (.connection q (.takeFrame f)) := enabled_connection hq ⟨hw, hf⟩
  apply CanAct.of_next he
  exact canAct_of_sending ((closeSent_next he).mpr (.inl hc)) (next_connection hq _) rfl

/-- As long as the write task runs, what is sent over the connection gets written. -/
theorem canAct_of_writing (hc : s.io.closeSent = true) (hq : s.endpoints q = .connection c)
    (hw : c.writeTask ≠ .ended) : s.CanAct := by
  cases htask : c.writeTask with
  | ended => exact absurd htask hw
  | sending f => exact canAct_of_sending hc hq htask
  | receiving =>
    cases hf : c.sink.items with
    | cons f rest => exact canAct_of_queued hc hq htask (by rw [hf]; rfl)
    | nil =>
      have hroom : c.sink.full = false := by simp [BoundedQueue.full, hf]
      have he : s.enabled (.connection q (.send .ping)) := enabled_connection hq ⟨hw, hroom⟩
      apply CanAct.of_next he
      have hq' := next_connection hq (.send .ping)
      refine canAct_of_queued ((closeSent_next he).mpr (.inl hc)) hq' htask (f := .ping) ?_
      simp only [Connection.next, Connection.sendFrame, BoundedQueue.push_items hroom, hf]
      rfl

theorem canAct_of_delivery (hc : s.io.closeSent = true) (hr : s.receiver = true)
    (hq : s.endpoints q = .connection c) (hd : c.delivery ≠ none) : s.CanAct := by
  have hsome : (s.endpoints q).satisfies fun c => c.delivery.isSome = true :=
    Endpoint.satisfies_iff.mpr ⟨c, hq, Option.ne_none_iff_isSome.mp hd⟩
  cases hroom : s.deliverFrame.full with
  | false => exact .of_enabled hc (e := .deliver q) ⟨⟨hr, hroom, hsome⟩, trivial⟩ trivial
  | true =>
    cases hitems : s.deliverFrame.items with
    | nil => simp [BoundedQueue.full, hitems] at hroom
    | cons d rest =>
      have hhead : s.deliverFrame.items.head? = some d := by rw [hitems]; rfl
      have he : s.enabled (.take d) := ⟨⟨hr, hhead⟩, trivial⟩
      apply CanAct.of_next he
      apply CanAct.of_enabled ((closeSent_next he).mpr (.inl hc)) (e := .deliver q)
      · exact ⟨⟨hr, BoundedQueue.pop_full hhead, hsome⟩, trivial⟩
      · trivial

end Connections

theorem canAct_of_not_stopped (hc : s.io.closeSent = true) (h : ¬ s.Stopped) : s.CanAct := by
  by_contra hquiet
  refine h ⟨fun q hq => hquiet ?_, fun q c hq => ⟨?_, fun hr => ?_⟩⟩
  · exact .of_enabled hc (e := .register q) ⟨trivial, hq⟩ trivial
  · by_contra hw
    exact hquiet (canAct_of_writing hc hq hw)
  · by_contra hd
    exact hquiet (canAct_of_delivery hc hr hq hd)

/-- A step that does not meet the guard leaves a closed socket with something to do. -/
theorem not_stopped_next (he : s.enabled e) (hg : ¬ s.closesQuietly e) :
    (s.next e).io.closeSent = true ∧ ¬ (s.next e).Stopped := by
  rw [closeSent_next he]
  cases e with
  | close =>
    refine ⟨.inr rfl, fun h => hg ⟨h.accept, h.connections⟩⟩
  | accepted q session =>
    refine ⟨.inl (Bool.not_eq_false _ ▸ hg), fun h => h.accept q rfl⟩
  | opened q session =>
    have hq : (s.endpoints q).isOpening = true := he.1
    refine ⟨.inl (Bool.not_eq_false _ ▸ hg), fun h => ?_⟩
    cases hopen : s.endpoints q with
    | opening id address =>
      have hconn : (s.next (.opened q session)).endpoints q =
          .connection (.fromTlsStream session id) := by
        simp [next_endpoints, effect, Socket.opened, hopen, updateEndpoint]
      cases (h.connections q _ hconn).1
    | none | connection => simp [hopen, Endpoint.isOpening] at hq
  | connection q e =>
    cases e with
    | frame f =>
      cases f with
      | data srcPort dstPort data =>
        obtain ⟨hc, hr⟩ := Classical.not_imp.mp hg
        obtain ⟨c, hq, -⟩ := Endpoint.satisfies_iff.mp he.1
        refine ⟨.inl hc, fun h => ?_⟩
        have hdelivery := (h.connections q _ (next_connection hq _)).2 (Bool.not_eq_false _ ▸ hr)
        cases hdelivery
      | ping | pong => exact absurd trivial hg
    | _ => exact absurd trivial hg
  | _ => exact absurd trivial hg

end Socket

/-- In a run whose steps leave a closed socket with nothing to do, nothing happens on it; any other
step of a run can be followed by an insertion, a write or a delivery on the closed socket. -/
theorem closed_quiet (r : Run (socketMachine tls)) :
    ((∀ x ∈ r.transitions, x.source.closesQuietly x.label) →
      ∀ x ∈ r.transitions, ¬ ActsClosed x) ∧
    ∀ e, r.final.enabled e → ¬ r.final.closesQuietly e → (r.final.next e).CanAct := by
  constructor
  · intro hg x hx hacts
    have hstart : r.start.io.closeSent = true → r.start.Stopped := by
      rw [show r.start = Socket.new tls from r.starts]
      exact fun h => by cases h
    have hquiet := (r.path.guarded_invariant (P := fun s => s.io.closeSent = true → s.Stopped)
      (G := Socket.closesQuietly) (fun _ _ hs hge he => Socket.stopped_next hs hge he)
      hstart hg).2 x hx
    have he := (guarded_step.mp (r.path.step_of_mem hx)).1
    exact (hquiet.1 hacts.1).not_acts he hacts.2
  · intro e he hg
    obtain ⟨hc, hs⟩ := Socket.not_stopped_next he hg
    exact Socket.canAct_of_not_stopped hc hs

section Unclosed

def otherAddr : SocketAddrV6 := ⟨6, 65041, 0, 0⟩

/-- One connection is registered and has a datagram to read, another one is in its handshake. -/
def closingEvents : List (SocketEvent keyTls) :=
  servedEvents ++ [.reader (.datagram [22] (.v6 otherAddr)),
    .reader (.send ⟨1, .v6 otherAddr, [22]⟩ 1 true), .reader (.insert (.v6 otherAddr) 1 true),
    .reader (.offer 1), .accept (.take 1), .close]

/-- The handshake ends; the registered connection writes a ping and delivers a frame. -/
def closedEvents : List (SocketEvent keyTls) :=
  [.accepted 1 (keySession [2]), .register 1, .connection 0 .tick, .connection 0 .ping,
    .connection 0 (.takeFrame .ping), .connection 0 (.written .ping),
    .receive 0 ⟨0, .v6 openedAddr, [22]⟩ [.data 1 2 [7]], .connection 0 (.frame (.data 1 2 [7])),
    .deliver 0]

/-- A closed socket inserts a connection, writes a frame and passes data upstream. -/
theorem closed_socket_acts : ∃ r : Run (socketMachine keyTls),
    ∀ e ∈ ([.register 1, .connection 0 (.written .ping), .deliver 0] : List (SocketEvent keyTls)),
      ∃ x ∈ r.transitions, ActsClosed x ∧ x.label = e := by
  obtain ⟨s, ⟨r, rfl⟩, hp⟩ := exec_reachable (M := socketMachine keyTls) rfl closingEvents
    (p := fun s => s.io.closeSent && (exec (socketMachine keyTls) s closedEvents).isSome)
    (by decide +kernel)
  obtain ⟨hclosed, hexec⟩ := (Bool.and_eq_true ..).mp hp
  obtain ⟨t, ht⟩ := Option.isSome_iff_exists.mp hexec
  obtain ⟨trace, path, hlabels⟩ := exec_path ht
  have hafter := (path.guarded_invariant (P := fun s => s.io.closeSent = true)
    (G := fun _ _ => True) (fun _ _ hs _ he => (Socket.closeSent_next he).mpr (.inl hs))
    hclosed fun _ _ => trivial).2
  refine ⟨⟨r.start, r.transitions ++ trace, t, r.starts, r.path.append path⟩, fun e he => ?_⟩
  have hevent : e ∈ closedEvents ∧ e.acts := by
    simp only [List.mem_cons, List.not_mem_nil, or_false] at he
    rcases he with rfl | rfl | rfl
    · exact ⟨by simp [closedEvents], trivial⟩
    · exact ⟨by simp [closedEvents], trivial⟩
    · exact ⟨by simp [closedEvents], trivial⟩
  obtain ⟨x, hx, rfl⟩ := List.mem_map.mp (hlabels ▸ hevent.1)
  exact ⟨x, List.mem_append_right _ hx, ⟨(hafter x hx).1, hevent.2⟩, rfl⟩

end Unclosed

end Uip.Transport
