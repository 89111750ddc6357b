import Uip.EventLogs
import Uip.TransportClosed

/-!
# What a connection does with the frames

The tasks of a connection in their order: what is put into its sink is written to the session,
what comes from the session goes on the data channel or is answered, for any number of
connections of a transport socket.
-/
namespace Uip.Transport
open TransitionSystem

variable {tls : Tls}

def WriteTask.frame : WriteTask → Option Frame
  | .sending frame => some frame
  | _ => none

/-- The tuple that a read task makes of a frame. -/
def Frame.delivery (remoteId : Identifier) : Frame → Option Delivery
  | .data srcPort dstPort bytes => some ⟨remoteId, srcPort, dstPort, bytes⟩
  | _ => none

namespace Connection

/-- The frame in the hands of the write task, and those in the sink. -/
def unwritten (c : Connection tls) : List Frame := c.writeTask.frame.toList ++ c.sink.items

/-- The tuple in the hands of the read task, and those of the frames before it. -/
def undelivered (c : Connection tls) : List Delivery :=
  c.delivery.toList ++ c.decoded.filterMap (Frame.delivery c.remoteId)

/-- The ping in the hands of the read task, and those before it. -/
def unanswered (c : Connection tls) : List Frame :=
  (if c.readTask = .sendingPong then [.ping] else []) ++ c.decoded.filter (· = .ping)

def due (c : Connection tls) : List Frame := if c.pingTask = .sending then [.ping] else []

end Connection

namespace ConnectionEvent

def puts : ConnectionEvent → Option Frame
  | .pong => some .pong
  | .ping => some .ping
  | .send f => some f
  | _ => none

def writes : ConnectionEvent → Option Frame
  | .written f => some f
  | _ => none

def answers : ConnectionEvent → Option Frame
  | .pong | .pongFailed => some .ping
  | _ => none

def pings : ConnectionEvent → Option Frame
  | .ping | .pingFailed => some .ping
  | _ => none

def ticks : ConnectionEvent → Option Frame
  | .tick => some .ping
  | _ => none

end ConnectionEvent

namespace SocketEvent

def place : SocketEvent tls → Option ℕ
  | .receive q _ _ | .connection q _ | .deliver q | .deliverClosed q | .release q => some q
  | _ => none

def of (q : ℕ) : SocketEvent tls → Option ConnectionEvent
  | .connection p e => if p = q then some e else none
  | _ => none

/-- The frames that the connection `q` gets from its session. -/
def gets (q : ℕ) : SocketEvent tls → List Frame
  | .receive p _ frames => if p = q then frames else []
  | _ => []

def takes : SocketEvent tls → Option Delivery
  | .take delivery => some delivery
  | _ => none

variable {q : ℕ} {e : SocketEvent tls}

theorem of_eq_none (h : e.place ≠ some q) : e.of q = none := by
  cases e with
  | connection p e => simpa [place, of] using h
  | _ => rfl

theorem gets_eq_nil (h : e.place ≠ some q) : e.gets q = [] := by
  cases e with
  | receive p d frames =>
    have hp : p ≠ q := by simpa [place] using h
    simp [gets, hp]
  | _ => rfl

end SocketEvent

def Endpoint.toConnection : Endpoint tls → Option (Connection tls)
  | .connection c => some c
  | .none | .opening .. => Option.none

theorem Endpoint.toConnection_eq_some {endpoint : Endpoint tls} {c : Connection tls} :
    endpoint.toConnection = some c ↔ endpoint = .connection c := by
  cases endpoint <;> simp [toConnection]

namespace Socket

variable {s : Socket tls} {e : SocketEvent tls} {q : ℕ}

def delivers (s : Socket tls) : SocketEvent tls → Option (ℕ × Delivery)
  | .deliver q => ((s.endpoints q).toConnection.bind Connection.delivery).map fun d => (q, d)
  | _ => none

/-- What a step does to the connection `q`, from none to one where it is made. -/
inductive ConnectionStep (s : Socket tls) (e : SocketEvent tls) (q : ℕ) :
    Option (Connection tls) → Option (Connection tls) → Prop
  | idle (c : Option (Connection tls)) (other : e.place ≠ some q) : ConnectionStep s e q c c
  | made (session : Session tls) (id : Identifier) (other : e.place ≠ some q) :
      ConnectionStep s e q none (some (.fromTlsStream session id))
  | receive (c : Connection tls) (d : Io.Datagram) (frames : List Frame)
      (event : e = .receive q d frames) (reading : c.readTask = .reading)
      (decoded : c.decoded = []) : ConnectionStep s e q (some c) (some { c with decoded := frames })
  | acts (c : Connection tls) (a : ConnectionEvent) (event : e = .connection q a)
      (enabled : c.enabled a) : ConnectionStep s e q (some c) (some (c.next a))
  | deliver (c : Connection tls) (d : Delivery) (event : e = .deliver q)
      (receiver : s.receiver = true) (found : c.delivery = some d) :
      ConnectionStep s e q (some c) (some { c with readTask := .reading })
  | deliverClosed (c : Connection tls) (event : e = .deliverClosed q)
      (receiver : s.receiver = false) (found : c.delivery.isSome = true) :
      ConnectionStep s e q (some c) (some { c with readTask := .ended })
  | release (c : Connection tls) (event : e = .release q) :
      ConnectionStep s e q (some c) (some { c with stream := false })

theorem ConnectionStep.update {p : ℕ} {endpoint : Endpoint tls} (hp : e.place = some p)
    (h : ConnectionStep s e p (s.endpoints p).toConnection endpoint.toConnection) (q : ℕ) :
    ConnectionStep s e q (s.endpoints q).toConnection
      ((s.updateEndpoint p endpoint).endpoints q).toConnection := by
  by_cases hq : q = p
  · subst hq
    simpa only [updateEndpoint, Function.update_self] using h
  · simp only [updateEndpoint, Function.update_of_ne hq]
    refine .idle _ fun hplace => hq ?_
    exact Option.some.inj (hplace.symm.trans hp)

theorem ConnectionStep.begin {p : ℕ} {endpoint : Endpoint tls} (hplace : e.place = none)
    (hp : (s.endpoints p).toConnection = none)
    (hnew : endpoint.toConnection = none ∨
      ∃ session id, endpoint = .connection (.fromTlsStream session id)) (q : ℕ) :
    ConnectionStep s e q (s.endpoints q).toConnection
      ((s.updateEndpoint p endpoint).endpoints q).toConnection := by
  have hother : e.place ≠ some q := by simp [hplace]
  by_cases hq : q = p
  · subst hq
    simp only [updateEndpoint, Function.update_self, hp]
    rcases hnew with hnone | ⟨session, id, rfl⟩
    · rw [hnone]
      exact .idle _ hother
    · exact .made session id hother
  · simp only [updateEndpoint, Function.update_of_ne hq]
    exact .idle _ hother

theorem ConnectionStep.of_next (h : s.Owners) (he : s.enabled e) (q : ℕ) :
    ConnectionStep s e q (s.endpoints q).toConnection ((s.next e).endpoints q).toConnection := by
  obtain ⟨hadmits, -⟩ := id he
  rw [next_endpoints]
  cases e with
  | reader | accept | openRead | take | dropReceiver | close =>
    exact .idle _ (by simp [SocketEvent.place])
  | accepted p session =>
    obtain ⟨id, hid⟩ := Option.isSome_iff_exists.mp hadmits
    have hnone := h.accepting p (enabled_accepted he)
    simp only [effect, Socket.accepted, hid]
    exact ConnectionStep.begin rfl (by rw [hnone]; rfl) (.inr ⟨session, id, rfl⟩) q
  | register p =>
    simp only [effect, Socket.register]
    split <;> exact .idle _ (by simp [SocketEvent.place])
  | openConnection id address =>
    have hnone := h.fresh s.io.nextQueue (Nat.le_refl _)
    exact ConnectionStep.begin rfl (by rw [hnone]; rfl) (.inl rfl) q
  | openFailed p =>
    have hopening : (s.endpoints p).isOpening = true := hadmits
    refine ConnectionStep.begin rfl ?_ (.inl rfl) q
    cases hp : s.endpoints p with
    | opening => rfl
    | none | connection => simp [hp, Endpoint.isOpening] at hopening
  | opened p session =>
    simp only [effect, Socket.opened]
    cases hp : s.endpoints p with
    | opening id address =>
      exact ConnectionStep.begin rfl (by rw [hp]; rfl) (.inr ⟨session, id, rfl⟩) q
    | none | connection => exact .idle _ (by simp [SocketEvent.place])
  | receive p d frames =>
    obtain ⟨c, hc, hready⟩ := Endpoint.satisfies_iff.mp hadmits
    refine ConnectionStep.update rfl ?_ q
    rw [hc]
    exact .receive c d frames rfl hready.1 hready.2
  | connection p a =>
    obtain ⟨c, hc, henabled⟩ := Endpoint.satisfies_iff.mp hadmits
    refine ConnectionStep.update rfl ?_ q
    rw [hc]
    exact .acts c a rfl henabled
  | deliver p =>
    obtain ⟨hreceiver, -, hp⟩ := hadmits
    obtain ⟨c, hc, hfound⟩ := Endpoint.satisfies_iff.mp hp
    obtain ⟨d, hd⟩ := Option.isSome_iff_exists.mp hfound
    simp only [effect, Socket.deliver, hc, hd]
    refine ConnectionStep.update rfl ?_ q
    rw [hc]
    exact .deliver c d rfl hreceiver hd
  | deliverClosed p =>
    obtain ⟨hreceiver, hp⟩ := hadmits
    obtain ⟨c, hc, hfound⟩ := Endpoint.satisfies_iff.mp hp
    refine ConnectionStep.update rfl ?_ q
    rw [hc]
    exact .deliverClosed c rfl hreceiver hfound
  | release p =>
    obtain ⟨c, hc, -⟩ := Endpoint.satisfies_iff.mp hadmits
    refine ConnectionStep.update rfl ?_ q
    rw [hc]
    exact .release c rfl

end Socket

theorem Connection.Continues.trans {b c d : Connection tls} (h : b.Continues c)
    (g : c.Continues d) : b.Continues d where
  remoteId := g.remoteId.trans h.remoteId
  session := g.session.trans h.session
  readTask hb := g.readTask (h.readTask hb)
  writeTask hb := g.writeTask (h.writeTask hb)
  stream hd := h.stream (g.stream hd)

theorem continues_of_final (r : Run (socketMachine tls)) {q : ℕ} {c : Connection tls}
    (hc : r.final.endpoints q = .connection c) : ∀ x ∈ r.transitions,
      ∀ b ∈ (x.source.endpoints q).toConnection, b.Continues c := by
  have hkeeps := r.path.relates
    (R := fun s t => ∀ b, s.endpoints q = .connection b →
      ∃ d, t.endpoints q = .connection d ∧ b.Continues d)
    (fun s b hb => ⟨b, hb, rfl, rfl, id, id, id⟩)
    (fun s t u hst htu b hb => by
      obtain ⟨d, hd, hbd⟩ := hst b hb
      obtain ⟨f, hf, hdf⟩ := htu d hd
      exact ⟨f, hf, hbd.trans hdf⟩)
    (fun x hx b hb => by
      obtain ⟨he, hnext⟩ := guarded_step.mp (r.path.step_of_mem hx)
      have howners := Socket.Owners.of_reachable (r.reachable_of_mem hx).1
      exact hnext ▸ howners.next_connection he hb)
  intro x hx b hb
  obtain ⟨d, hd, hcontinues⟩ := (hkeeps x hx).1 b (Endpoint.toConnection_eq_some.mp hb)
  rw [hc] at hd
  exact Endpoint.connection.inj hd ▸ hcontinues

section Writing

namespace Connection

variable {c : Connection tls} {a : ConnectionEvent}

/-- A frame goes into the sink, then to the write task, then to the session. -/
theorem next_unwritten (ha : c.enabled a) :
    a.writes.toList ++ (c.next a).unwritten = c.unwritten ++ a.puts.toList ∨
      (c.next a).writeTask = .ended ∧ a.writes = none := by
  cases a with
  | pong | ping =>
    left
    have hpush := BoundedQueue.push_items ha.2.2
    simp [next, unwritten, sendFrame, ConnectionEvent.writes, ConnectionEvent.puts, hpush]
  | send f =>
    left
    have hpush := BoundedQueue.push_items ha.2
    simp [next, unwritten, sendFrame, ConnectionEvent.writes, ConnectionEvent.puts, hpush]
  | takeFrame f =>
    left
    obtain ⟨hreceiving, hhead⟩ := ha
    obtain ⟨rest, hrest⟩ := List.head?_eq_some_iff.mp hhead
    have hpop := BoundedQueue.pop_items c.sink
    simp [next, unwritten, ConnectionEvent.writes, ConnectionEvent.puts, hpop, hrest, hreceiving,
      WriteTask.frame]
  | written f =>
    left
    have hsending : c.writeTask = .sending f := ha
    simp [next, unwritten, ConnectionEvent.writes, ConnectionEvent.puts, hsending, WriteTask.frame]
  | writeError | writeClosed => exact .inr ⟨rfl, rfl⟩
  | _ =>
    left
    simp [next, unwritten, ConnectionEvent.writes, ConnectionEvent.puts]

theorem quiet_of_ended (ha : c.enabled a) (hc : c.writeTask = .ended) :
    a.writes = none ∧ a.puts = none := by
  cases a with
  | pong | ping => exact absurd hc ha.2.1
  | send f => exact absurd hc ha.1
  | written f => cases hc.symm.trans ha
  | _ => exact ⟨rfl, rfl⟩

end Connection

namespace Socket

variable {s : Socket tls} {e : SocketEvent tls} {q : ℕ} {before after : Option (Connection tls)}

theorem ConnectionStep.unwritten (h : ConnectionStep s e q before after) :
    ((e.of q).bind ConnectionEvent.writes).toList ++ after.elim [] Connection.unwritten =
        before.elim [] Connection.unwritten ++ ((e.of q).bind ConnectionEvent.puts).toList ∨
      (∃ c ∈ after, c.writeTask = .ended) ∧ (e.of q).bind ConnectionEvent.writes = none := by
  cases h with
  | idle c other => simp [SocketEvent.of_eq_none other]
  | made session id other =>
    left
    simp [SocketEvent.of_eq_none other, Connection.unwritten, Connection.fromTlsStream,
      WriteTask.frame]
  | acts c a event enabled =>
    subst event
    rcases Connection.next_unwritten enabled with hsame | ⟨hended, hnone⟩
    · exact .inl (by simpa [SocketEvent.of] using hsame)
    · exact .inr ⟨⟨c.next a, rfl, hended⟩, by simpa [SocketEvent.of] using hnone⟩
  | receive | deliver | deliverClosed | release =>
    left
    simp [*, SocketEvent.of, Connection.unwritten]

theorem ConnectionStep.writeTask_ended (h : ConnectionStep s e q before after)
    (hended : ∃ c ∈ before, c.writeTask = .ended) : (∃ c ∈ after, c.writeTask = .ended) ∧
      (e.of q).bind ConnectionEvent.writes = none ∧ (e.of q).bind ConnectionEvent.puts = none := by
  obtain ⟨c, hc, hended⟩ := hended
  cases h with
  | idle c' other => exact ⟨⟨c, hc, hended⟩, by simp [SocketEvent.of_eq_none other]⟩
  | made => cases hc
  | acts c' a event enabled =>
    obtain rfl := Option.some.inj hc
    obtain ⟨hwrites, hputs⟩ := Connection.quiet_of_ended enabled hended
    refine ⟨⟨_, rfl, Connection.next_writeTask_ended enabled hended⟩, ?_⟩
    simp [event, SocketEvent.of, hwrites, hputs]
  | receive c' | deliver c' | deliverClosed c' | release c' =>
    obtain rfl := Option.some.inj hc
    exact ⟨⟨_, rfl, hended⟩, by simp [*, SocketEvent.of]⟩

theorem step_of_mem (r : Run (socketMachine tls)) (q : ℕ)
    {x : Transition (Socket tls) (SocketEvent tls)} (hx : x ∈ r.transitions) :
    ConnectionStep x.source x.label q (x.source.endpoints q).toConnection
      (x.target.endpoints q).toConnection := by
  have howners := Owners.of_reachable (r.reachable_of_mem hx).1
  obtain ⟨he, hnext⟩ := guarded_step.mp (r.path.step_of_mem hx)
  rw [← hnext]
  exact .of_next howners he q

end Socket

/-- The write task of a connection writes the first part of what goes into its sink, and has the
rest before it as long as it runs. -/
theorem writes_in_order (r : Run (socketMachine tls)) (q : ℕ) :
    let puts := r.transitions.filterMap fun x => (x.label.of q).bind ConnectionEvent.puts
    let writes := r.transitions.filterMap fun x => (x.label.of q).bind ConnectionEvent.writes
    writes <+: puts ∧ ∀ c, r.final.endpoints q = .connection c → c.writeTask ≠ .ended →
      writes ++ c.unwritten = puts := by
  have hflow := r.path.flow_closing
    (fun s => (s.endpoints q).toConnection.elim [] Connection.unwritten)
    (fun x => ((x.label.of q).bind ConnectionEvent.writes).toList)
    (fun x => ((x.label.of q).bind ConnectionEvent.puts).toList)
    (fun s => ∃ c ∈ (s.endpoints q).toConnection, c.writeTask = .ended)
    (fun x hx hended => by
      obtain ⟨hlasts, hwrites, hputs⟩ := (Socket.step_of_mem r q hx).writeTask_ended hended
      exact ⟨hlasts, by simp [hwrites], by simp [hputs]⟩)
    (fun x hx _ => by simpa using (Socket.step_of_mem r q hx).unwritten)
  obtain ⟨hleads, hall⟩ := hflow
  have hstart : r.start.endpoints q = .none := by rw [show r.start = _ from r.starts]; rfl
  simp only [hstart, Endpoint.toConnection, Option.elim, List.nil_append,
    ← List.filterMap_eq_flatMap_toList] at hleads hall
  refine ⟨hleads, fun c hc hwriting => ?_⟩
  simpa [hc, Endpoint.toConnection, hwriting] using hall

end Writing

section Reading

namespace Connection

variable {c : Connection tls} {a : ConnectionEvent}

theorem next_undelivered (ha : c.enabled a) : (c.next a).undelivered = c.undelivered := by
  cases a with
  | frame f =>
    obtain ⟨hreading, hhead⟩ := ha
    obtain ⟨rest, hrest⟩ := List.head?_eq_some_iff.mp hhead
    cases f <;>
      simp [next, undelivered, delivery, handling, hreading, hrest, Frame.delivery,
        List.filterMap_cons]
  | pong | pongFailed =>
    have hpong : c.readTask = .sendingPong := ha.1
    simp [next, undelivered, delivery, sendFrame, hpong]
  | timeout | decodeError | endOfStream =>
    have hreading : c.readTask = .reading := ha.1
    simp [next, undelivered, delivery, hreading]
  | _ => rfl

end Connection

namespace Socket

variable {s : Socket tls} {e : SocketEvent tls} {q : ℕ} {before after : Option (Connection tls)}

def deliversOf (q : ℕ) (s : Socket tls) (e : SocketEvent tls) : List Delivery :=
  ((s.delivers e).toList.filter fun x => x.1 = q).map Prod.snd

theorem deliversOf_eq_nil (h : e.place ≠ some q) : s.deliversOf q e = [] := by
  cases e with
  | deliver p =>
    have hp : p ≠ q := by simpa [SocketEvent.place] using h
    simp only [deliversOf, delivers]
    cases (s.endpoints p).toConnection.bind Connection.delivery <;> simp [hp]
  | _ => rfl

theorem ConnectionStep.undelivered (h : ConnectionStep s e q before after)
    (hbefore : before = (s.endpoints q).toConnection) {id : Identifier}
    (hid : ∀ c ∈ before, c.remoteId = id) :
    s.deliversOf q e ++ after.elim [] Connection.undelivered =
        before.elim [] Connection.undelivered ++ (e.gets q).filterMap (Frame.delivery id) ∨
      (s.receiver = false ∧ ∃ c ∈ after, c.readTask = .ended) ∧ s.deliversOf q e = [] := by
  cases h with
  | idle c other =>
    left
    simp [deliversOf_eq_nil other, SocketEvent.gets_eq_nil other]
  | made session id other =>
    left
    simp [deliversOf_eq_nil other, SocketEvent.gets_eq_nil other, Connection.undelivered,
      Connection.fromTlsStream, Connection.delivery]
  | receive c d frames event reading decoded =>
    left
    have hc : c.remoteId = id := hid c rfl
    simp [event, deliversOf, delivers, SocketEvent.gets, Connection.undelivered,
      Connection.delivery, reading, decoded, hc]
  | acts c a event enabled =>
    left
    simp [event, deliversOf, delivers, SocketEvent.gets, Connection.next_undelivered enabled]
  | deliver c d event receiver found =>
    left
    simp [event, deliversOf, delivers, ← hbefore, found, SocketEvent.gets, Connection.undelivered]
    simp [Connection.delivery]
  | deliverClosed c event receiver =>
    right
    exact ⟨⟨receiver, _, rfl, rfl⟩, by simp [event, deliversOf, delivers]⟩
  | release c event =>
    left
    simp [event, deliversOf, delivers, SocketEvent.gets, Connection.undelivered]
    rfl

theorem ConnectionStep.readTask_ended (h : ConnectionStep s e q before after)
    (hreceiver : s.receiver = false) (hended : ∃ c ∈ before, c.readTask = .ended) :
    (∃ c ∈ after, c.readTask = .ended) ∧ s.deliversOf q e = [] ∧ e.gets q = [] := by
  obtain ⟨c, hc, hended⟩ := hended
  cases h with
  | idle c' other =>
    exact ⟨⟨c, hc, hended⟩, deliversOf_eq_nil other, SocketEvent.gets_eq_nil other⟩
  | made => cases hc
  | receive c' d frames event reading =>
    obtain rfl := Option.some.inj hc
    cases reading.symm.trans hended
  | deliver c' d event receiver => cases hreceiver.symm.trans receiver
  | acts c' a event enabled =>
    obtain rfl := Option.some.inj hc
    refine ⟨⟨_, rfl, Connection.next_readTask_ended enabled hended⟩, ?_⟩
    simp [event, deliversOf, delivers, SocketEvent.gets]
  | deliverClosed c' event =>
    exact ⟨⟨_, rfl, rfl⟩, by simp [event, deliversOf, delivers, SocketEvent.gets]⟩
  | release c' event =>
    obtain rfl := Option.some.inj hc
    exact ⟨⟨_, rfl, hended⟩, by simp [event, deliversOf, delivers, SocketEvent.gets]⟩

/-- The data channel is a queue as long as somebody receives. -/
theorem channel_next (he : s.enabled e) :
    e.takes.toList ++ (s.next e).deliverFrame.items =
        s.deliverFrame.items ++ ((s.delivers e).map Prod.snd).toList ∨
      (s.next e).receiver = false ∧ e.takes = none := by
  have hsame : e.takes = none → s.delivers e = none → (s.next e).deliverFrame = s.deliverFrame →
      e.takes.toList ++ (s.next e).deliverFrame.items =
        s.deliverFrame.items ++ ((s.delivers e).map Prod.snd).toList := by
    intro htakes hdelivers hframe
    simp [htakes, hdelivers, hframe]
  cases e with
  | deliver q =>
    left
    obtain ⟨c, d, hc, hd, -, hitems⟩ := next_deliver he
    simp [hitems, SocketEvent.takes, delivers, hc, Endpoint.toConnection, hd]
  | take d =>
    left
    obtain ⟨-, hhead⟩ := he.1
    obtain ⟨rest, hrest⟩ := List.head?_eq_some_iff.mp hhead
    have hpop := BoundedQueue.pop_items s.deliverFrame
    simp [next, effect, SocketEvent.takes, delivers, hpop, hrest]
  | dropReceiver => exact .inr ⟨rfl, rfl⟩
  | accepted q session =>
    refine .inl (hsame rfl rfl ?_)
    simp only [next, effect, Socket.accepted]
    split <;> rfl
  | opened q session =>
    refine .inl (hsame rfl rfl ?_)
    simp only [next, effect, Socket.opened]
    split <;> rfl
  | register q =>
    refine .inl (hsame rfl rfl ?_)
    simp only [next, effect, Socket.register]
    split <;> rfl
  | _ => exact .inl (hsame rfl rfl rfl)

theorem channel_closed (he : s.enabled e) (hreceiver : s.receiver = false) :
    (s.next e).receiver = false ∧ e.takes = none ∧ s.delivers e = none := by
  have hlasts : (s.next e).receiver = false := by
    rw [← Bool.not_eq_true]
    intro hopen
    cases hreceiver.symm.trans (receiver_of_next hopen)
  refine ⟨hlasts, ?_⟩
  cases e with
  | deliver q => cases hreceiver.symm.trans he.1.1
  | take d => cases hreceiver.symm.trans he.1.1
  | _ => exact ⟨rfl, rfl⟩

end Socket

theorem taken_of_run (r : Run (socketMachine tls)) :
    (r.transitions.filterMap fun x => x.label.takes) <+:
        (r.transitions.filterMap fun x => x.source.delivers x.label).map Prod.snd ∧
      (r.final.receiver = true →
        (r.transitions.filterMap fun x => x.label.takes) ++ r.final.deliverFrame.items =
          (r.transitions.filterMap fun x => x.source.delivers x.label).map Prod.snd) := by
  have hstart : r.start = .new tls := r.starts
  have hflow := r.path.flow_closing (fun s => s.deliverFrame.items)
    (fun x => x.label.takes.toList)
    (fun x => ((x.source.delivers x.label).map Prod.snd).toList)
    (fun s => s.receiver = false)
    (fun x hx hclosed => by
      obtain ⟨he, hnext⟩ := guarded_step.mp (r.path.step_of_mem hx)
      obtain ⟨hlasts, htakes, hdelivers⟩ := Socket.channel_closed he hclosed
      exact ⟨hnext ▸ hlasts, by simp [htakes], by simp [hdelivers]⟩)
    (fun x hx _ => by
      obtain ⟨he, hnext⟩ := guarded_step.mp (r.path.step_of_mem hx)
      simpa [hnext] using Socket.channel_next he)
  simp only [← List.filterMap_eq_flatMap_toList] at hflow
  simpa [hstart, Socket.new, List.map_filterMap] using hflow

/-- A connection delivers what it gets from its session. -/
theorem delivered_of_run (r : Run (socketMachine tls)) {q : ℕ} {c : Connection tls}
    (hc : r.final.endpoints q = .connection c) :
    let own := ((r.transitions.filterMap fun x => x.source.delivers x.label).filter
      fun x => x.1 = q).map Prod.snd
    let received := (r.transitions.flatMap fun x => x.label.gets q).filterMap
      (Frame.delivery c.remoteId)
    own <+: received ∧ (c.readTask ≠ .ended ∨ r.final.receiver = true →
      own ++ c.undelivered = received) := by
  have hstart : r.start = .new tls := r.starts
  have hflow := r.path.flow_closing
    (fun s => (s.endpoints q).toConnection.elim [] Connection.undelivered)
    (fun x => x.source.deliversOf q x.label)
    (fun x => (x.label.gets q).filterMap (Frame.delivery c.remoteId))
    (fun s => s.receiver = false ∧ ∃ c ∈ (s.endpoints q).toConnection, c.readTask = .ended)
    (fun x hx hclosed => by
      obtain ⟨he, hnext⟩ := guarded_step.mp (r.path.step_of_mem hx)
      obtain ⟨hlasts, -⟩ := Socket.channel_closed he hclosed.1
      obtain ⟨hended, hdelivers, hgets⟩ :=
        (Socket.step_of_mem r q hx).readTask_ended hclosed.1 hclosed.2
      exact ⟨⟨hnext ▸ hlasts, hended⟩, hdelivers, by simp [hgets]⟩)
    (fun x hx _ => by
      have hstep := (Socket.step_of_mem r q hx).undelivered rfl fun b hb =>
        (continues_of_final r hc x hx b hb).remoteId.symm
      refine hstep.imp id fun ⟨⟨hclosed, hended⟩, hnone⟩ => ⟨⟨?_, hended⟩, hnone⟩
      obtain ⟨he, hnext⟩ := guarded_step.mp (r.path.step_of_mem hx)
      exact hnext ▸ (Socket.channel_closed he hclosed).1)
  obtain ⟨hleads, hall⟩ := hflow
  simp only [hstart, Socket.new, Endpoint.toConnection, Option.elim_none, List.nil_append,
    ← List.filterMap_flatMap] at hleads hall
  rw [keyed_log]
  refine ⟨hleads, fun hkept => ?_⟩
  simp only [hc, Option.elim_some] at hall
  apply hall
  rintro ⟨hclosed, c', hc', hended⟩
  obtain rfl := Option.some.inj hc'
  exact hkept.elim (fun hrun => hrun hended) fun hopen => by simp [hclosed] at hopen

/-- Whoever receives from a transport socket gets what its connections deliver, in this order, and
each connection delivers the data that comes from its session, in its order, as coming from its
peer. It loses none as long as its read task runs or somebody receives. -/
theorem delivers_in_order (r : Run (socketMachine tls)) :
    let takes := r.transitions.filterMap fun x => x.label.takes
    let delivers := r.transitions.filterMap fun x => x.source.delivers x.label
    (takes <+: delivers.map Prod.snd ∧
      (r.final.receiver = true → takes ++ r.final.deliverFrame.items = delivers.map Prod.snd)) ∧
    ∀ q c, r.final.endpoints q = .connection c →
      let own := (delivers.filter fun x => x.1 = q).map Prod.snd
      let received := (r.transitions.flatMap fun x => x.label.gets q).filterMap
        (Frame.delivery c.remoteId)
      own <+: received ∧ (c.readTask ≠ .ended ∨ r.final.receiver = true →
        own ++ c.undelivered = received) :=
  ⟨taken_of_run r, fun _ _ hc => delivered_of_run r hc⟩

end Reading

section Pings

namespace Connection

variable {c : Connection tls} {a : ConnectionEvent}

theorem next_unanswered (ha : c.enabled a) :
    a.answers.toList ++ (c.next a).unanswered = c.unanswered := by
  cases a with
  | frame f =>
    obtain ⟨hreading, hhead⟩ := ha
    obtain ⟨rest, hrest⟩ := List.head?_eq_some_iff.mp hhead
    cases f <;> simp [next, unanswered, handling, hreading, hrest, ConnectionEvent.answers]
  | pong | pongFailed =>
    have hpong : c.readTask = .sendingPong := ha.1
    simp [next, unanswered, sendFrame, hpong, ConnectionEvent.answers]
  | timeout | decodeError | endOfStream =>
    have hreading : c.readTask = .reading := ha.1
    simp [next, unanswered, hreading, ConnectionEvent.answers]
  | _ => rfl

theorem next_due (ha : c.enabled a) :
    a.pings.toList ++ (c.next a).due = c.due ++ a.ticks.toList := by
  cases a with
  | tick =>
    have hwaiting : c.pingTask = .waiting := ha
    simp [next, due, hwaiting, ConnectionEvent.pings, ConnectionEvent.ticks]
  | ping | pingFailed =>
    have hsending : c.pingTask = .sending := ha.1
    simp [next, due, sendFrame, hsending, ConnectionEvent.pings, ConnectionEvent.ticks]
  | pingClosed =>
    have hwaiting : c.pingTask = .waiting := ha.1
    simp [next, due, hwaiting, ConnectionEvent.pings, ConnectionEvent.ticks]
  | _ => exact (List.append_nil _).symm

theorem readTask_ne_of_delivery (h : c.delivery.isSome = true) : c.readTask ≠ .sendingPong := by
  intro hpong
  simp [delivery, hpong] at h

end Connection

namespace Socket

variable {s : Socket tls} {e : SocketEvent tls} {q : ℕ} {before after : Option (Connection tls)}

theorem ConnectionStep.unanswered (h : ConnectionStep s e q before after) :
    ((e.of q).bind ConnectionEvent.answers).toList ++ after.elim [] Connection.unanswered =
      before.elim [] Connection.unanswered ++ (e.gets q).filter (· = .ping) := by
  cases h with
  | idle c other => simp [SocketEvent.of_eq_none other, SocketEvent.gets_eq_nil other]
  | made session id other =>
    simp [SocketEvent.of_eq_none other, SocketEvent.gets_eq_nil other, Connection.unanswered,
      Connection.fromTlsStream]
  | receive c d frames event reading decoded =>
    simp [event, SocketEvent.of, SocketEvent.gets, Connection.unanswered, reading, decoded]
  | acts c a event enabled =>
    simp [event, SocketEvent.of, SocketEvent.gets, Connection.next_unanswered enabled]
  | deliver c d event receiver found =>
    have hread := Connection.readTask_ne_of_delivery (Option.isSome_of_eq_some found)
    simp [event, SocketEvent.of, SocketEvent.gets, Connection.unanswered, hread]
  | deliverClosed c event receiver found =>
    have hread := Connection.readTask_ne_of_delivery found
    simp [event, SocketEvent.of, SocketEvent.gets, Connection.unanswered, hread]
  | release c event =>
    simp [event, SocketEvent.of, SocketEvent.gets, Connection.unanswered]

theorem ConnectionStep.due (h : ConnectionStep s e q before after) :
    ((e.of q).bind ConnectionEvent.pings).toList ++ after.elim [] Connection.due =
      before.elim [] Connection.due ++ ((e.of q).bind ConnectionEvent.ticks).toList := by
  cases h with
  | idle c other => simp [SocketEvent.of_eq_none other]
  | made session id other =>
    simp [SocketEvent.of_eq_none other, Connection.due, Connection.fromTlsStream]
  | acts c a event enabled => simpa [event, SocketEvent.of] using Connection.next_due enabled
  | receive | deliver | deliverClosed | release => simp [*, SocketEvent.of, Connection.due]

end Socket

theorem enabled_of_mem (r : Run (socketMachine tls)) {q : ℕ} {c : Connection tls}
    (hc : r.final.endpoints q = .connection c) {a : ConnectionEvent}
    (ha : a ∈ r.transitions.filterMap fun x => x.label.of q) :
    ∃ b : Connection tls, b.enabled a ∧ b.Continues c := by
  obtain ⟨x, hx, hof⟩ := List.mem_filterMap.mp ha
  have hstep := Socket.step_of_mem r q hx
  have hcontinues := continues_of_final r hc x hx
  generalize (x.source.endpoints q).toConnection = before at hstep hcontinues
  generalize (x.target.endpoints q).toConnection = after at hstep
  cases hstep with
  | idle b other => cases (SocketEvent.of_eq_none other).symm.trans hof
  | made session id other => cases (SocketEvent.of_eq_none other).symm.trans hof
  | acts b a' event enabled =>
    obtain rfl : a' = a := by simpa [event, SocketEvent.of] using hof
    exact ⟨b, enabled, hcontinues b rfl⟩
  | receive b d frames event => simp [event, SocketEvent.of] at hof
  | deliver b d event | deliverClosed b event | release b event =>
    simp [event, SocketEvent.of] at hof

/-- Each ping that comes from the session is answered once, in its turn, and each tick makes one
ping; these go into the sink as long as the write task runs. -/
theorem pings_answered (r : Run (socketMachine tls)) {q : ℕ} {c : Connection tls}
    (hc : r.final.endpoints q = .connection c) :
    let own := r.transitions.filterMap fun x => x.label.of q
    let received := r.transitions.flatMap fun x => x.label.gets q
    own.filterMap ConnectionEvent.answers ++ c.unanswered = received.filter (· = .ping) ∧
      own.filterMap ConnectionEvent.pings ++ c.due = own.filterMap ConnectionEvent.ticks ∧
      (c.writeTask ≠ .ended → .pongFailed ∉ own ∧ .pingFailed ∉ own) := by
  have hstart : (r.start.endpoints q).toConnection = none := by
    rw [show r.start = _ from r.starts]
    rfl
  have hfinal : (r.final.endpoints q).toConnection = some c := Endpoint.toConnection_eq_some.mpr hc
  refine ⟨?_, ?_, fun hwriting => ⟨fun hfailed => ?_, fun hfailed => ?_⟩⟩
  · have hflow := r.path.flow
      (fun s => (s.endpoints q).toConnection.elim [] Connection.unanswered)
      (fun x => ((x.label.of q).bind ConnectionEvent.answers).toList)
      (fun x => (x.label.gets q).filter (· = .ping))
      fun x hx => (Socket.step_of_mem r q hx).unanswered
    simpa only [hstart, hfinal, Option.elim_none, Option.elim_some, List.nil_append,
      ← List.filterMap_eq_flatMap_toList, ← List.filter_flatMap, List.filterMap_filterMap]
      using hflow
  · have hflow := r.path.flow
      (fun s => (s.endpoints q).toConnection.elim [] Connection.due)
      (fun x => ((x.label.of q).bind ConnectionEvent.pings).toList)
      (fun x => ((x.label.of q).bind ConnectionEvent.ticks).toList)
      fun x hx => (Socket.step_of_mem r q hx).due
    simpa only [hstart, hfinal, Option.elim_none, Option.elim_some, List.nil_append,
      ← List.filterMap_eq_flatMap_toList, List.filterMap_filterMap] using hflow
  · obtain ⟨b, henabled, hcontinues⟩ := enabled_of_mem r hc hfailed
    exact hwriting (hcontinues.writeTask henabled.2)
  · obtain ⟨b, henabled, hcontinues⟩ := enabled_of_mem r hc hfailed
    exact hwriting (hcontinues.writeTask henabled.2)

/-- An accepted connection gets a ping. -/
theorem pings_answered_ping : ∃ (r : Run (socketMachine keyTls)) (c : Connection keyTls),
    r.final.endpoints 0 = .connection c ∧
      ((r.transitions.filterMap fun x => x.label.of 0).filterMap ConnectionEvent.answers ++
        c.unanswered) = [.ping] := by
  obtain ⟨r, -, hlabels, hfinal⟩ := exec_final (M := socketMachine keyTls) rfl (servedEvents ++
    [.receive 0 ⟨0, .v6 openedAddr, [22]⟩ [.ping], .connection 0 (.frame .ping),
      .connection 0 .pong])
    (p := fun s => decide ((s.endpoints 0).satisfies fun c => c.writeTask ≠ .ended))
    (by decide +kernel)
  obtain ⟨c, hc, -⟩ := Endpoint.satisfies_iff.mp (of_decide_eq_true hfinal)
  have hreceived : (r.transitions.flatMap fun x => x.label.gets 0) = [.ping] := by
    have hgets := congrArg (List.flatMap (SocketEvent.gets 0)) hlabels
    rwa [List.flatMap_map] at hgets
  refine ⟨r, c, hc, ?_⟩
  rw [(pings_answered r hc).1, hreceived]
  rfl

end Pings

end Uip.Transport
