import Uip.Termination
import Uip.TransportRest
import Mathlib.Algebra.Order.BigOperators.Group.Finset

/-! What the tasks of a transport socket still have to do: datagrams to read, and steps for what
they have read. A datagram may hold any number of frames. -/
namespace Uip
open TransitionSystem Transport

variable {tls : Tls}

namespace Io

/-- The steps that the read task still makes before it waits, or that another makes for it. -/
def ReadTask.work : ReadTask → ℕ
  | .receiving => 1
  | .sending .. => 6
  | .inserting .. => 5
  | .offering _ => 4
  | .ended => 0

def ReadTask.unread : ReadTask → ℕ
  | .sending .. => 1
  | _ => 0

namespace Socket

variable {s : Socket} {e : Event} {q : ℕ}

def queued (s : Socket) (q : ℕ) : ℕ := (s.queues q).datagrams.items.length

/-- The datagrams that nobody has read. -/
def unread (s : Socket) : ℕ := s.readTask.unread + ∑ q ∈ Finset.range s.nextQueue, s.queued q

def work (s : Socket) : ℕ := s.readTask.work + 2 * s.incoming.items.length

theorem sum_queued_next (s : Socket) (e : Event) :
    ∑ q ∈ Finset.range (s.next e).nextQueue, (s.next e).queued q =
      ∑ q ∈ Finset.range s.nextQueue, (s.next e).queued q := by
  have hnew : ∀ remote origin since,
      (s.next e).queues s.nextQueue = .new remote origin since →
        (s.next e).queued s.nextQueue = 0 := by
    intro remote origin since h
    rw [queued, h]
    rfl
  rcases s.next_fresh e with ⟨h, -⟩ | ⟨h, ⟨_, _, -, -, hqueue⟩ | ⟨_, -, hqueue⟩⟩
  · rw [h]
  · rw [h, Finset.sum_range_succ, hnew _ _ _ hqueue, Nat.add_zero]
  · rw [h, Finset.sum_range_succ, hnew _ _ _ hqueue, Nat.add_zero]

theorem queued_next_le (hq : q < s.nextQueue) (hsend : ∀ d b, e ≠ .send d q b) :
    (s.next e).queued q ≤ s.queued q := by
  unfold queued
  rcases s.next_queue e hq with h | ⟨d, b, rfl, -⟩ | ⟨d, -, h⟩ | ⟨-, h⟩
  · rw [h]
  · exact absurd rfl (hsend d b)
  · rw [h, pop_items, List.length_tail]
    exact Nat.sub_le _ 1
  · rw [h]
    exact Nat.zero_le _

theorem unread_send {d : Datagram} {b : Bool} (hw : s.WellFormed) (he : s.enabled (.send d q b)) :
    (s.next (.send d q b)).unread = s.unread := by
  have hlt : q < s.nextQueue := (hw.target d.source q (by rw [he.1]; rfl)).1
  have hothers : ∀ j, j ≠ q → (s.next (.send d q b)).queued j = s.queued j := by
    intro j hj
    simp [queued, next, updateQueue, hj]
  have hput : (s.next (.send d q b)).queued q = s.queued q + 1 := by
    simp [queued, next, updateQueue, put_items _ _ he.2.2]
  have hsum := sum_range_change hlt hothers
  have hhand : s.readTask.unread = 1 := by
    rw [he.1]
    rfl
  have hempty : (s.next (.send d q b)).readTask.unread = 0 := rfl
  rw [unread, unread, sum_queued_next]
  omega

theorem unread_next (hw : s.WellFormed) (he : s.enabled e)
    (harrives : ∀ bytes remote, e ≠ .datagram bytes remote) : (s.next e).unread ≤ s.unread := by
  by_cases hsend : ∃ d q b, e = .send d q b
  · obtain ⟨d, q, b, rfl⟩ := hsend
    exact Nat.le_of_eq (unread_send hw he)
  · have hqueues : ∑ q ∈ Finset.range s.nextQueue, (s.next e).queued q ≤
        ∑ q ∈ Finset.range s.nextQueue, s.queued q :=
      Finset.sum_le_sum fun q hq =>
        queued_next_le (Finset.mem_range.mp hq) fun d b h => hsend ⟨d, q, b, h⟩
    have hhand : (s.next e).readTask.unread ≤ s.readTask.unread := by
      cases e with
      | datagram bytes remote => exact absurd rfl (harrives bytes remote)
      | send d q b => exact absurd ⟨d, q, b, rfl⟩ hsend
      | insert remote q b => cases b <;> exact Nat.zero_le _
      | sendClosed | offer | offerClosed | recvError | closed => exact Nat.zero_le _
      | close | connect | take | read | drop | dropAcceptor => exact Nat.le_refl _
    rw [unread, unread, sum_queued_next]
    omega

theorem unread_read {d : Datagram} (he : s.enabled (.read q d)) :
    (s.next (.read q d)).unread < s.unread := by
  have hothers : ∀ j, j ≠ q → (s.next (.read q d)).queued j = s.queued j := by
    intro j hj
    simp [queued, next, updateQueue, hj]
  have hpop : (s.next (.read q d)).queued q + 1 = s.queued q := by
    obtain ⟨rest, hitems⟩ := List.head?_eq_some_iff.mp he.2.2.2
    simp [queued, next, updateQueue, pop_items, hitems]
  have hsum := sum_range_change he.1 hothers
  have hhand : (s.next (.read q d)).readTask = s.readTask := rfl
  rw [unread, unread, sum_queued_next, hhand]
  omega

/-- The read task comes nearer to where it waits with every step but the first. -/
theorem work_reader (he : s.enabled e) (hread : e.ofReadTask = true)
    (harrives : ∀ bytes remote, e ≠ .datagram bytes remote) : (s.next e).work < s.work := by
  unfold work
  rw [next_incoming he]
  cases e with
  | datagram bytes remote => exact absurd rfl (harrives bytes remote)
  | send | sendClosed | offerClosed | closed => simp [next, he.1, ReadTask.work]
  | offer =>
    simp only [next, he.1, ReadTask.work, List.length_append, List.length_singleton]
    omega
  | insert remote q b =>
    cases b <;> simp [next, show s.readTask = _ from he, ReadTask.work]
  | recvError => simp [next, show s.readTask = _ from he, ReadTask.work]
  | close | connect | take | read | drop | dropAcceptor => cases hread

theorem work_take (he : s.enabled (.take q)) : (s.next (.take q)).work + 2 = s.work := by
  obtain ⟨rest, hitems⟩ := List.head?_eq_some_iff.mp he.2
  unfold work
  rw [next_incoming he, hitems]
  simp only [next, List.tail_cons, List.length_cons]
  omega

theorem work_dropAcceptor : (s.next .dropAcceptor).work ≤ s.work :=
  Nat.add_le_add_left (Nat.zero_le _) _

end Socket

end Io

namespace Transport

def AcceptTask.work : AcceptTask → ℕ
  | .receiving => 1
  | .registering _ => 2
  | _ => 0

def WriteTask.work : WriteTask → ℕ
  | .receiving => 1
  | .sending _ => 2
  | .ended => 0

def PingTask.work : PingTask → ℕ
  | .waiting => 1
  | .sending => 4
  | .ended => 0

/-- A tuple calls for seven steps: its delivery, and the answer to it at most. -/
def ReadTask.work : ReadTask → ℕ
  | .sendingPong => 3
  | .sendingData .. => 7
  | .reading | .ended => 0

namespace Connection

variable {c : Connection tls} {e : ConnectionEvent}

def work (c : Connection tls) : ℕ :=
  8 * c.decoded.length + c.readTask.work + 2 * c.sink.items.length + c.writeTask.work +
    c.pingTask.work + c.stream.toNat

theorem sink_length (h : c.accepts) (f : Frame) :
    (c.sendFrame f).sink.items.length = c.sink.items.length + 1 := by
  rw [sendFrame, BoundedQueue.push_items h.2, List.length_append, List.length_singleton]

theorem work_send (h : c.accepts) (f : Frame) : (c.next (.send f)).work = c.work + 2 := by
  simp only [work, next, sink_length h]
  simp only [sendFrame]
  omega

theorem work_next (prompt : e.prompt = true) (he : c.enabled e) : (c.next e).work < c.work := by
  cases e with
  | frame f =>
    obtain ⟨rest, hdecoded⟩ := List.head?_eq_some_iff.mp he.2
    have hhandling : (handling f).work ≤ 7 := by cases f <;> simp [handling, ReadTask.work]
    have hreading : c.readTask.work = 0 := by
      rw [he.1]
      rfl
    simp only [work, next, hdecoded, List.tail_cons, List.length_cons]
    omega
  | pong =>
    simp only [work, next, sink_length he.2, he.1, ReadTask.work]
    simp only [sendFrame]
    omega
  | ping =>
    simp only [work, next, sink_length he.2, he.1, PingTask.work]
    simp only [sendFrame]
    omega
  | pongFailed =>
    simp only [work, next, he.1, ReadTask.work]
    omega
  | takeFrame f =>
    obtain ⟨rest, hsink⟩ := List.head?_eq_some_iff.mp he.2
    simp only [work, next, BoundedQueue.pop_items, hsink, he.1, List.tail_cons, List.length_cons,
      WriteTask.work]
    omega
  | written f =>
    simp only [work, next, show c.writeTask = _ from he, WriteTask.work]
    omega
  | writeClosed =>
    simp only [work, next, endWriteTask, he.1, WriteTask.work, BoundedQueue.empty_items,
      List.length_nil]
    omega
  | pingFailed | pingClosed =>
    simp only [work, next, he.1, PingTask.work]
    omega
  | timeout | decodeError | endOfStream | writeError | tick | send => cases prompt

end Connection

def Endpoint.work : Endpoint tls → ℕ
  | .connection c => c.work
  | _ => 0

namespace Socket

variable {s : Socket tls} {e : SocketEvent tls} {q : ℕ}

def unread (s : Socket tls) : ℕ := s.io.unread

def endpointsWork (s : Socket tls) : ℕ :=
  ∑ q ∈ Finset.range s.io.nextQueue, (s.endpoints q).work

def work (s : Socket tls) : ℕ :=
  s.io.work + s.acceptor.task.work + 6 * s.deliverFrame.items.length + s.endpointsWork

theorem lt_nextQueue (hw : s.Owners) {c : Connection tls} (hc : s.endpoints q = .connection c) :
    q < s.io.nextQueue := by
  by_contra hq
  cases (hw.fresh q (Nat.le_of_not_lt hq)).symm.trans hc

section Parts

variable {t : Socket tls} (hqueues : t.io.nextQueue = s.io.nextQueue)

include hqueues

theorem endpointsWork_eq (h : t.endpoints = s.endpoints) : t.endpointsWork = s.endpointsWork := by
  rw [endpointsWork, hqueues, h]
  rfl

theorem endpointsWork_change (hq : q < s.io.nextQueue)
    (hothers : ∀ j, j ≠ q → t.endpoints j = s.endpoints j) :
    t.endpointsWork + (s.endpoints q).work = s.endpointsWork + (t.endpoints q).work := by
  rw [endpointsWork, endpointsWork, hqueues]
  exact sum_range_change hq fun j hj => congrArg Endpoint.work (hothers j hj)

end Parts

theorem endpoints_updateConnection {c : Connection tls} (hc : s.endpoints q = .connection c)
    (f : Connection tls → Connection tls) :
    (s.updateConnection q f).endpoints = Function.update s.endpoints q (.connection (f c)) := by
  rw [updateConnection, hc]
  rfl

theorem work_connection {t : Socket tls} (hw : s.Owners) {c d : Connection tls}
    (hc : s.endpoints q = .connection c) (hqueues : t.io.nextQueue = s.io.nextQueue)
    (hio : t.io.work = s.io.work) (htask : t.acceptor.task = s.acceptor.task)
    (h : t.endpoints = Function.update s.endpoints q (.connection d)) :
    t.work + c.work + 6 * s.deliverFrame.items.length =
      s.work + d.work + 6 * t.deliverFrame.items.length := by
  have hchange := endpointsWork_change hqueues (lt_nextQueue hw hc) fun j hj => by
    rw [h, Function.update_of_ne hj]
  rw [h, Function.update_self, hc] at hchange
  simp only [Endpoint.work] at hchange
  rw [work, work, hio, htask]
  omega

theorem nextQueue_prompt (prompt : e.prompt = true) :
    (s.next e).io.nextQueue = s.io.nextQueue := by
  cases e with
  | reader i => cases i <;> first | rfl | cases prompt
  | accept a => cases a <;> first | rfl | cases prompt
  | register | receive | connection | deliver | deliverClosed | release => rfl
  | _ => cases prompt

theorem unread_next_le (hw : s.Owners) (he : s.enabled e)
    (harrives : ∀ bytes remote, e ≠ .reader (.datagram bytes remote)) :
    (s.next e).unread ≤ s.unread := by
  apply io_next (P := fun io => io.unread ≤ s.io.unread) (Nat.le_refl _)
  intro i hi
  refine Io.Socket.unread_next hw.acceptor.wellFormed (enabled_io he hi) ?_
  rintro bytes remote rfl
  cases onIo_of_enabled he hi with
  | reader => exact harrives bytes remote rfl

theorem work_accept {a : AcceptEvent} (prompt : (SocketEvent.accept a : SocketEvent tls).prompt)
    (he : s.enabled (.accept a)) : (s.next (.accept a)).work < s.work := by
  have hacceptor : (s.acceptor.next a).io.work + (s.acceptor.next a).task.work <
      s.io.work + s.acceptor.task.work := by
    cases a with
    | take q =>
      have hio : (s.io.next (.take q)).work + 2 = s.io.work :=
        Io.Socket.work_take (enabled_io he rfl)
      change (s.io.next (.take q)).work + 0 < _
      omega
    | ended =>
      have hio : (s.io.next .dropAcceptor).work ≤ s.io.work := Io.Socket.work_dropAcceptor
      have htask : s.acceptor.task.work = 1 := by
        rw [he.2.1]
        rfl
      change (s.io.next .dropAcceptor).work + 0 < _
      omega
    | _ => cases prompt
  rw [work, endpointsWork_eq (nextQueue_prompt prompt) rfl]
  exact Nat.add_lt_add_right (Nat.add_lt_add_right hacceptor _) _

theorem work_register (he : s.enabled (.register q)) :
    (s.next (.register q)).work < s.work := by
  have htask : s.acceptor.task.work = 2 := by
    rw [show s.acceptor.task = _ from he.2]
    rfl
  have hsame : (s.effect (.register q)).endpoints = s.endpoints ∧
      (s.effect (.register q)).deliverFrame = s.deliverFrame := by
    simp only [effect, Socket.register]
    split <;> exact ⟨rfl, rfl⟩
  have hendpoints := endpointsWork_eq (s := s) (t := s.next (.register q)) rfl hsame.1
  have hchannel : (s.next (.register q)).deliverFrame = s.deliverFrame := hsame.2
  rw [work, work, hendpoints, hchannel, htask]
  exact Nat.add_lt_add_right (Nat.add_lt_add_right (Nat.add_lt_add_left Nat.one_lt_two _) _) _

theorem readTask_work {c : Connection tls} (h : c.delivery.isSome = true) :
    c.readTask.work = 7 := by
  cases hr : c.readTask <;> simp [Connection.delivery, hr] at h ⊢
  rfl

theorem work_deliver (hw : s.Owners) (he : s.enabled (.deliver q)) :
    (s.next (.deliver q)).work < s.work := by
  obtain ⟨c, d, hc, hd, -, hchannel⟩ := next_deliver he
  have hread := readTask_work (Option.isSome_iff_exists.mpr ⟨d, hd⟩)
  have hwork : ({ c with readTask := .reading } : Connection tls).work + 7 = c.work := by
    simp only [Connection.work, hread]
    simp only [ReadTask.work]
    omega
  have hstep := work_connection (t := s.next (.deliver q)) (d := { c with readTask := .reading })
    hw hc rfl rfl rfl (by
      simp [next, effect, Socket.deliver, updateConnection, updateEndpoint, hc, hd, Endpoint.map])
  rw [hchannel, List.length_append, List.length_singleton] at hstep
  omega

theorem work_deliverClosed (hw : s.Owners) (he : s.enabled (.deliverClosed q)) :
    (s.next (.deliverClosed q)).work < s.work := by
  obtain ⟨c, hc, hd⟩ := Endpoint.satisfies_iff.mp he.1.2
  have hread := readTask_work hd
  have hwork : ({ c with readTask := .ended } : Connection tls).work + 7 = c.work := by
    simp only [Connection.work, hread]
    simp only [ReadTask.work]
    omega
  have hstep := work_connection (t := s.next (.deliverClosed q)) hw hc rfl rfl rfl
    (endpoints_updateConnection hc _)
  have hchannel : (s.next (.deliverClosed q)).deliverFrame = s.deliverFrame := rfl
  rw [hchannel] at hstep
  omega

theorem work_release (hw : s.Owners) (he : s.enabled (.release q)) :
    (s.next (.release q)).work < s.work := by
  obtain ⟨c, hc, hstream, -⟩ := Endpoint.satisfies_iff.mp he.1
  have hwork : ({ c with stream := false } : Connection tls).work + 1 = c.work := by
    simp only [Connection.work, hstream, Bool.toNat_true, Bool.toNat_false]
  have hstep := work_connection (t := s.next (.release q)) hw hc rfl rfl rfl
    (endpoints_updateConnection hc _)
  have hchannel : (s.next (.release q)).deliverFrame = s.deliverFrame := rfl
  rw [hchannel] at hstep
  omega

theorem work_event (hw : s.Owners) {c : Connection tls} (hc : s.endpoints q = .connection c)
    (ce : ConnectionEvent) :
    (s.next (.connection q ce)).work + c.work = s.work + (c.next ce).work := by
  have hstep := work_connection (t := s.next (.connection q ce)) hw hc rfl rfl rfl
    (endpoints_updateConnection hc _)
  have hchannel : (s.next (.connection q ce)).deliverFrame = s.deliverFrame := rfl
  rw [hchannel] at hstep
  omega

/-- A step of the tasks leaves fewer datagrams to read, or fewer steps for what was read. -/
theorem lowers (hw : s.Owners) (prompt : e.prompt = true) (he : s.enabled e) :
    (s.next e).unread < s.unread ∨
      (s.next e).unread ≤ s.unread ∧ (s.next e).work < s.work := by
  have hunread : (s.next e).unread ≤ s.unread := by
    refine unread_next_le hw he ?_
    rintro bytes remote rfl
    cases prompt
  cases e with
  | receive q d frames => exact .inl (Io.Socket.unread_read (enabled_io he rfl))
  | reader i =>
    refine .inr ⟨hunread, ?_⟩
    have hio : (s.io.next i).work < s.io.work := by
      refine Io.Socket.work_reader (enabled_io he rfl) he.1 ?_
      rintro bytes remote rfl
      cases prompt
    rw [work, endpointsWork_eq (nextQueue_prompt prompt) rfl]
    exact Nat.add_lt_add_right (Nat.add_lt_add_right (Nat.add_lt_add_right hio _) _) _
  | accept a => exact .inr ⟨hunread, work_accept prompt he⟩
  | register q => exact .inr ⟨hunread, work_register he⟩
  | connection q ce =>
    refine .inr ⟨hunread, ?_⟩
    obtain ⟨c, hc, hce⟩ := Endpoint.satisfies_iff.mp he.1
    have hwork := Connection.work_next prompt hce
    have hstep := work_event hw hc ce
    omega
  | deliver q => exact .inr ⟨hunread, work_deliver hw he⟩
  | deliverClosed q => exact .inr ⟨hunread, work_deliverClosed hw he⟩
  | release q => exact .inr ⟨hunread, work_release hw he⟩
  | _ => cases prompt

section Calls

/-! What the tasks of a daemon do at the socket. -/

theorem work_takeDelivery {d : Delivery} (he : s.enabled (.take d)) :
    (s.next (.take d)).work + 6 = s.work := by
  obtain ⟨rest, hitems⟩ := List.head?_eq_some_iff.mp he.1.2
  have hchannel : (s.next (.take d)).deliverFrame.items = rest := by
    simp [next, effect, BoundedQueue.pop_items, hitems]
  have hendpoints := endpointsWork_eq (s := s) (t := s.next (.take d)) rfl rfl
  rw [work, work, hendpoints, hchannel, hitems, List.length_cons]
  change s.io.work + s.acceptor.task.work + _ + _ + _ = _
  omega

theorem work_send (hw : s.Owners) {f : Frame} (he : s.enabled (.connection q (.send f))) :
    (s.next (.connection q (.send f))).work = s.work + 2 := by
  obtain ⟨c, hc, haccepts⟩ := Endpoint.satisfies_iff.mp he.1
  have hwork := Connection.work_send haccepts f
  have hstep := work_event hw hc (.send f)
  omega

theorem work_dropReceiver : (s.next .dropReceiver).work ≤ s.work := by
  have hendpoints := endpointsWork_eq (s := s) (t := s.next .dropReceiver) rfl rfl
  rw [work, work, hendpoints]
  change s.io.work + s.acceptor.task.work + 6 * 0 + _ ≤ _
  omega

theorem work_openConnection {id : Identifier} {address : SocketAddrV6} :
    (s.next (.openConnection id address)).work = s.work := by
  have hendpoints : (s.next (.openConnection id address)).endpointsWork = s.endpointsWork := by
    have hold : ∀ q ∈ Finset.range s.io.nextQueue,
        ((s.next (.openConnection id address)).endpoints q).work = (s.endpoints q).work := by
      intro q hq
      have hne : q ≠ s.io.nextQueue := Nat.ne_of_lt (Finset.mem_range.mp hq)
      simp [next, effect, updateEndpoint, hne]
    have hnew :
        ((s.next (.openConnection id address)).endpoints s.io.nextQueue).work = 0 := by
      simp [next, effect, updateEndpoint, Endpoint.work]
    rw [endpointsWork, openConnection_io, (s.io.connect_fresh _).1, Finset.sum_range_succ, hnew,
      Finset.sum_congr rfl hold]
    rfl
  rw [work, work, hendpoints]
  rfl

end Calls

end Socket

end Transport

end Uip
