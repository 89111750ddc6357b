import Uip.DaemonOrder

/-!
# Calls for a host

A task that is to send a frame to a host gets a connection first, finds one or opens one. Whatever
happens meanwhile, it sends this frame, over a connection that bears the identifier of this host,
and only once.
-/
namespace Uip
open TransitionSystem Transport

variable {tls : Tls} {pack : MessagePack}

def Transport.Endpoint.host : Endpoint tls → Option Identifier
  | .none => Option.none
  | .opening identifier _ => some identifier
  | .connection c => some c.remoteId

/-- What a task is to send to a host. A relay gets the own peer record of the moment when the
connection to it is open, so that its calls come without a message. -/
structure Call where
  host : Identifier
  message : Option Frame
  deriving DecidableEq

def Loop.message : Loop → Option Frame → Option Frame
  | .relays _ _, _ => none
  | _, message => message

/-- The task `n` is done with its call: it has sent, failed or nothing to send. -/
def DaemonEvent.ends (n : ℕ) : DaemonEvent tls → Bool
  | .unconnectable m _ _ | .openFailed m _ _ _ | .send m _ _ _ | .sendFailed m _ _ _
  | .returned m _ _ => m == n
  | _ => false

namespace Transport.Socket

variable {s : Socket tls} {e : SocketEvent tls} {q : ℕ}

theorem Owners.host_next (h : s.Owners) (he : s.enabled e) {host : Identifier}
    (hq : (s.endpoints q).host = some host) (hne : e ≠ .openFailed q) :
    ((s.next e).endpoints q).host = some host := by
  have hstep := next_endpoint he q
  generalize (s.next e).endpoints q = endpoint at hstep
  cases hstep with
  | same => exact hq
  | accepted session id event known =>
    subst event
    rw [h.accepting q (enabled_accepted he)] at hq
    cases hq
  | opening id address event fresh =>
    rw [h.fresh q (Nat.le_of_eq fresh.symm)] at hq
    cases hq
  | failed event => exact absurd event hne
  | opened session id address event opening =>
    rw [opening] at hq
    exact hq
  | continues c d old keeps =>
    rw [old] at hq
    exact (congrArg some keeps.remoteId).trans hq

theorem Owners.opening_next (h : s.Owners) (he : s.enabled e)
    (hq : (s.endpoints q).isOpening = true)
    (hfailed : e ≠ .openFailed q) (hopened : ∀ session, e ≠ .opened q session) :
    ((s.next e).endpoints q).isOpening = true := by
  have hstep := next_endpoint he q
  generalize (s.next e).endpoints q = endpoint at hstep
  cases hstep with
  | same => exact hq
  | accepted session id event known =>
    subst event
    rw [h.accepting q (enabled_accepted he)] at hq
    cases hq
  | opening => rfl
  | failed event => exact absurd event hfailed
  | opened session id address event => exact absurd event (hopened session)
  | continues c d old =>
    rw [old] at hq
    cases hq

end Transport.Socket

namespace Daemon

variable {d : Daemon tls} {e : DaemonEvent tls} {k q n : ℕ}

/-- The call that a task with this loop is at in this phase. -/
def callAt (d : Daemon tls) (loop : Loop) : Phase → Option Call
  | .lookup host message | .connecting host message => some ⟨host, loop.message message⟩
  | .handshake k q message | .sending k q message =>
    ((d.table k).endpoints q).host.map fun host => ⟨host, loop.message message⟩
  | _ => none

def pending (d : Daemon tls) (n : ℕ) : Option Call := d.callAt (d.tasks n).loop (d.tasks n).phase

/-- The call that a step begins for the task `n`. -/
def calls (pack : MessagePack) (d : Daemon tls) (n : ℕ) : DaemonEvent tls → Option Call
  | .sendFrame host srcPort dstPort data =>
    if n = d.nextTask then some ⟨host, some (.data srcPort dstPort data)⟩ else none
  | .requestPeerInfo id =>
    if n = d.nextTask then (d.network.requestPeerInfo id).map fun request =>
      ⟨request.relay, controlFrame (NetworkState.sendPeerInfoRequest pack request.id)⟩
    else none
  | .getConnection host => if n = d.nextTask then some ⟨host, none⟩ else none
  | .process m delivery =>
    if n = m then
      match d.network.processControlMessage pack delivery.hostId delivery.data with
      | some (_, some reply) =>
        some ⟨reply.host, controlFrame (NetworkState.sendPeerInfo pack reply.peer)⟩
      | _ => none
    else none
  | .relayOpen m _ relay _ _ => if n = m then some ⟨relay, none⟩ else none
  | _ => none

def nextPhase (pack : MessagePack) (d : Daemon tls) : DaemonEvent tls → Phase
  | .take _ _ delivery => .delivering delivery
  | .process n delivery =>
    match d.network.processControlMessage pack delivery.hostId delivery.data with
    | some (_, some reply) =>
      .lookup reply.host (controlFrame (NetworkState.sendPeerInfo pack reply.peer))
    | some (_, none) => .idle
    | none => (d.tasks n).phase
  | .panicked .. => .ended
  | .found _ k q _ message => .sending k q message
  | .missing _ host message => .connecting host message
  | .choose _ k _ _ message => .handshake k (d.table k).io.nextQueue message
  | .relayOpen _ k _ _ _ => .handshake k (d.table k).io.nextQueue none
  | .opened n k q _ message => .sending k q (d.openedMessage pack n message)
  | _ => .idle

theorem phase_next (d : Daemon tls) (h : e.onTask = some n) :
    ((d.next pack e).tasks n).phase = d.nextPhase pack e := by
  rw [next_tasks]
  cases e with
  | process m delivery =>
    obtain rfl := Option.some.inj h
    simp only [effect, processDelivery, nextPhase]
    rcases d.network.processControlMessage pack delivery.hostId delivery.data with
      _ | ⟨network, _ | reply⟩
    · rfl
    · simp [setPhase, setTask]
    · simp [setPhase, setTask]
  | relayKnown m | relayUnknown m | relayOpen m =>
    obtain rfl := Option.some.inj h
    simp [effect, setTask, nextPhase]
  | take m | upstream m | panicked m | found m | missing m | unconnectable m | choose m
  | opened m | openFailed m | send m | sendFailed m | returned m =>
    obtain rfl := Option.some.inj h
    simp [effect, setPhase, setTask, nextPhase]
  | _ => cases h

theorem loop_message_next (he : d.enabled pack e) (h : e.onTask = some n) :
    ((d.next pack e).tasks n).loop.message = (d.tasks n).loop.message := by
  have hadmits := he.1
  rw [next_tasks]
  cases e with
  | process m delivery =>
    obtain rfl := Option.some.inj h
    simp only [effect, processDelivery]
    split
    · simp [setPhase, setTask]
    · simp [setPhase, setTask]
    · rfl
  | relayKnown m | relayUnknown m | relayOpen m =>
    obtain rfl := Option.some.inj h
    rw [hadmits.1]
    simp only [effect, setTask, Function.update_self]
    rfl
  | take m | upstream m | panicked m | found m | missing m | unconnectable m | choose m
  | opened m | openFailed m | send m | sendFailed m | returned m =>
    obtain rfl := Option.some.inj h
    simp [effect, setPhase, setTask]
  | _ => cases h

theorem begun (hf : d.Fresh) (he : d.enabled pack e) (hn : d.nextTask ≤ n) :
    (((d.next pack e).tasks n).phase = .idle ∧ d.calls pack n e = none) ∨
      ∃ call, d.calls pack n e = some call ∧
        (d.next pack e).tasks n = ⟨.once, .lookup call.host call.message⟩ := by
  have hidle := hf n hn
  have hown : ∀ m, e.onTask = some m → n ≠ m := by
    rintro m hm rfl
    exact not_returned he hm (by rw [hidle]; exact ⟨rfl, trivial⟩)
  -- A call of `get_connection` on behalf of a spawned task.
  have hspawn : ∀ call : Call, d.calls pack n e = (if n = d.nextTask then some call else none) →
      ((d.next pack e).tasks n = (d.spawn ⟨.once, .lookup call.host call.message⟩).tasks n) →
      (((d.next pack e).tasks n).phase = .idle ∧ d.calls pack n e = none) ∨
        ∃ call, d.calls pack n e = some call ∧
          (d.next pack e).tasks n = ⟨.once, .lookup call.host call.message⟩ := by
    intro call hcalls htask
    by_cases hnew : n = d.nextTask
    · subst hnew
      refine .inr ⟨call, by rw [hcalls, if_pos rfl], ?_⟩
      rw [htask]
      simp [spawn, setTask]
    · refine .inl ⟨?_, by rw [hcalls, if_neg hnew]⟩
      rw [htask]
      simp [spawn, setTask, hnew, hidle]
  cases e with
  | sendFrame host srcPort dstPort data => exact hspawn ⟨host, _⟩ rfl rfl
  | getConnection host => exact hspawn ⟨host, none⟩ rfl rfl
  | requestPeerInfo id =>
    cases hrequest : d.network.requestPeerInfo id with
    | none =>
      left
      simp [calls, hrequest, next_tasks, effect, hidle]
    | some request =>
      refine hspawn ⟨request.relay, _⟩ (by simp only [calls, hrequest]; rfl) ?_
      simp [next_tasks, effect, hrequest]
  | openSocket address =>
    refine .inl ⟨?_, rfl⟩
    simp only [next_tasks, effect, openSocket, spawn, setTask, Function.update_apply]
    split_ifs <;> simp [hidle]
  | connectToRelays j =>
    refine .inl ⟨?_, rfl⟩
    simp only [next_tasks, effect, spawn, setTask, Function.update_apply]
    split_ifs <;> simp [hidle]
  | process m delivery =>
    have hm : n ≠ m := hown m rfl
    refine .inl ⟨?_, if_neg hm⟩
    simp only [next_tasks, effect, processDelivery]
    split
    · simp [setPhase, setTask, hm, hidle]
    · simp [setPhase, setTask, hm, hidle]
    · rw [hidle]
  | relayOpen m =>
    have hm : n ≠ m := hown m rfl
    refine .inl ⟨?_, if_neg hm⟩
    simp [next_tasks, effect, setTask, hm, hidle]
  | socket | closeSocket => exact .inl ⟨by rw [next_tasks]; exact congrArg Task.phase hidle, rfl⟩
  | take m | upstream m | panicked m | found m | missing m | unconnectable m | choose m
  | relayKnown m | relayUnknown m | opened m | openFailed m | send m | sendFailed m
  | returned m =>
    have hm : n ≠ m := hown m rfl
    refine .inl ⟨?_, rfl⟩
    simp [next_tasks, effect, setPhase, setTask, hm, hidle]

/-- Each handshake that a task awaits is under way and awaited by no other task, and each connection
that it is about to send over has been made. -/
structure Calling (d : Daemon tls) : Prop where
  staffed : d.Staffed
  delivering : ∀ n delivery, (d.tasks n).phase = .delivering delivery →
    ∃ k, (d.tasks n).loop = .deliver k
  opening : ∀ n k q message, (d.tasks n).phase = .handshake k q message →
    ((d.table k).endpoints q).isOpening = true
  sending : ∀ n k q message, (d.tasks n).phase = .sending k q message →
    ∃ c, (d.table k).endpoints q = .connection c
  apart : ∀ n m k q a b, (d.tasks n).phase = .handshake k q a →
    (d.tasks m).phase = .handshake k q b → n = m

theorem Calling.new (network : NetworkState) : (new tls network).Calling where
  staffed := .new network
  delivering n delivery h := by cases h
  opening n k q message h := by cases h
  sending n k q message h := by cases h
  apart n m k q a b h := by cases h

theorem handshake_of_next (hf : d.Fresh) (he : d.enabled pack e) {message : Option Frame}
    (h : ((d.next pack e).tasks n).phase = .handshake k q message) :
    (e.onTask ≠ some n ∧ (d.tasks n).phase = .handshake k q message) ∨
      (q = (d.table k).io.nextQueue ∧ e.onTask = some n ∧
        ∃ host address, e.onSocket = some (k, .openConnection host address)) := by
  by_cases hown : e.onTask = some n
  · right
    rw [phase_next d hown] at h
    have hadmits := he.1
    cases e with
    | choose m j host address a =>
      obtain ⟨rfl, rfl, -⟩ := Phase.handshake.inj h
      exact ⟨rfl, hown, host, address, rfl⟩
    | relayOpen m j relay rest address =>
      obtain ⟨rfl, rfl, -⟩ := Phase.handshake.inj h
      exact ⟨rfl, hown, relay, address, rfl⟩
    | process m delivery =>
      simp only [nextPhase] at h
      split at h
      · cases h
      · cases h
      · rw [hadmits.1] at h
        cases h
    | _ => cases h
  · left
    refine ⟨hown, ?_⟩
    by_cases hn : n < d.nextTask
    · rwa [tasks_next d e hown (.inl hn)] at h
    · rcases begun hf he (Nat.le_of_not_lt hn) with ⟨hidle, -⟩ | ⟨call, -, htask⟩
      · cases hidle.symm.trans h
      · rw [htask] at h
        cases h

/-- The step of a task after which it is about to send. -/
theorem sending_of_next (hf : d.Fresh) (he : d.enabled pack e) {message : Option Frame}
    (h : ((d.next pack e).tasks n).phase = .sending k q message) :
    (e.onTask ≠ some n ∧ (d.tasks n).phase = .sending k q message) ∨
      (∃ host, e = .found n k q host message) ∨
      ∃ session a, e = .opened n k q session a ∧ message = d.openedMessage pack n a := by
  by_cases hown : e.onTask = some n
  · right
    rw [phase_next d hown] at h
    have hadmits := he.1
    cases e with
    | found m j p host a =>
      obtain rfl := Option.some.inj hown
      obtain ⟨rfl, rfl, rfl⟩ := Phase.sending.inj h
      exact .inl ⟨host, rfl⟩
    | opened m j p session a =>
      obtain rfl := Option.some.inj hown
      obtain ⟨rfl, rfl, rfl⟩ := Phase.sending.inj h
      exact .inr ⟨session, a, rfl, rfl⟩
    | process m delivery =>
      simp only [nextPhase] at h
      split at h
      · cases h
      · cases h
      · rw [hadmits.1] at h
        cases h
    | _ => cases h
  · left
    refine ⟨hown, ?_⟩
    by_cases hn : n < d.nextTask
    · rwa [tasks_next d e hown (.inl hn)] at h
    · rcases begun hf he (Nat.le_of_not_lt hn) with ⟨hidle, -⟩ | ⟨call, -, htask⟩
      · cases hidle.symm.trans h
      · rw [htask] at h
        cases h

theorem awaiting_event (he : d.enabled pack e) {se : SocketEvent tls}
    (hx : e.onSocket = some (k, se))
    (hse : se = .openFailed q ∨ ∃ session, se = .opened q session) :
    ∃ m message, e.onTask = some m ∧ (d.tasks m).phase = .handshake k q message := by
  have hadmits := he.1
  cases e with
  | socket j se' =>
    obtain ⟨-, rfl⟩ := Prod.mk.inj (Option.some.inj hx)
    rcases hse with rfl | ⟨session, rfl⟩ <;> cases hadmits.2
  | opened m j p session message =>
    obtain ⟨rfl, rfl⟩ := Prod.mk.inj (Option.some.inj hx)
    obtain rfl : p = q := by simpa using hse
    exact ⟨m, message, rfl, hadmits⟩
  | openFailed m j p message =>
    obtain ⟨rfl, rfl⟩ := Prod.mk.inj (Option.some.inj hx)
    obtain rfl : p = q := by simpa using hse
    exact ⟨m, message, rfl, hadmits⟩
  | closeSocket | take | panicked | choose | relayOpen | send =>
    obtain ⟨-, rfl⟩ := Prod.mk.inj (Option.some.inj hx)
    simp at hse
  | _ => cases hx

theorem Calling.used (h : d.Calling) {message : Option Frame}
    (hn : (d.tasks n).phase = .handshake k q message ∨ (d.tasks n).phase = .sending k q message) :
    k < d.nextSocket := by
  refine h.staffed.uses n k (.inr ?_)
  rcases hn with hn | hn <;> rw [hn] <;> rfl

/-- Where no task of its own makes the step, a handshake that is awaited goes on. -/
theorem Calling.not_ended (h : d.Calling) (he : d.enabled pack e) {message : Option Frame}
    (hn : (d.tasks n).phase = .handshake k q message) (hown : e.onTask ≠ some n)
    {se : SocketEvent tls} (hx : e.onSocket = some (k, se)) :
    se ≠ .openFailed q ∧ ∀ session, se ≠ .opened q session := by
  have hse : ¬ (se = .openFailed q ∨ ∃ session, se = .opened q session) := by
    intro hse
    obtain ⟨m, a, hm, hphase⟩ := awaiting_event he hx hse
    rw [h.apart n m k q message a hn hphase] at hown
    exact hown hm
  exact ⟨fun hfailed => hse (.inl hfailed), fun session hopened => hse (.inr ⟨session, hopened⟩)⟩

theorem Calling.opening_next (h : d.Calling) (he : d.enabled pack e) {message : Option Frame}
    (hn : ((d.next pack e).tasks n).phase = .handshake k q message) :
    (((d.next pack e).table k).endpoints q).isOpening = true := by
  rcases handshake_of_next h.staffed.fresh he hn with ⟨hown, hold⟩ | ⟨rfl, -, host, address, hx⟩
  · have hopening := h.opening n k q message hold
    rcases next_table he k with hs | ⟨se, hx, hen, hs⟩ | ⟨address, rfl, rfl, -⟩
    · rwa [hs]
    · obtain ⟨hfailed, hopened⟩ := h.not_ended he hold hown hx
      rw [hs]
      exact (h.staffed.wellFormed.owners k).opening_next hen hopening hfailed hopened
    · exact absurd (h.used (.inl hold)) (Nat.lt_irrefl _)
  · rw [table_at hx]
    simp [Socket.next, Socket.effect, Socket.updateEndpoint, Endpoint.isOpening]

theorem Calling.sending_next (h : d.Calling) (he : d.enabled pack e) {message : Option Frame}
    (hn : ((d.next pack e).tasks n).phase = .sending k q message) :
    ∃ c, ((d.next pack e).table k).endpoints q = .connection c := by
  rcases sending_of_next h.staffed.fresh he hn with ⟨hown, hold⟩ | ⟨host, rfl⟩ |
    ⟨session, a, rfl, -⟩
  · obtain ⟨c, hc⟩ := h.sending n k q message hold
    rcases next_table he k with hs | ⟨se, hx, hen, hs⟩ | ⟨address, rfl, rfl, -⟩
    · exact ⟨c, hs ▸ hc⟩
    · obtain ⟨c', hc', -⟩ := (h.staffed.wellFormed.owners k).next_connection hen hc
      exact ⟨c', hs ▸ hc'⟩
    · exact absurd (h.used (.inr hold)) (Nat.lt_irrefl _)
  · obtain ⟨-, -, hfound⟩ := he.1
    obtain ⟨c, hc, -⟩ := (h.staffed.wellFormed.owners k).registered host q hfound
    exact ⟨c, hc⟩
  · have hopening := h.opening n k q a he.1
    rw [table_at rfl]
    cases hq : (d.table k).endpoints q with
    | opening id address =>
      exact ⟨.fromTlsStream session id, by
        simp [Socket.next, Socket.effect, Socket.opened, hq, Socket.updateEndpoint]⟩
    | none | connection => simp [hq, Endpoint.isOpening] at hopening

theorem Calling.delivering_next (h : d.Calling) (he : d.enabled pack e) {delivery : Delivery}
    (hn : ((d.next pack e).tasks n).phase = .delivering delivery) :
    ∃ k, ((d.next pack e).tasks n).loop = .deliver k := by
  by_cases hown : e.onTask = some n
  · rw [phase_next d hown] at hn
    have hadmits := he.1
    cases e with
    | take m k taken =>
      obtain rfl := Option.some.inj hown
      refine ⟨k, deliver_next h.staffed.fresh he ?_⟩
      rw [show d.tasks m = _ from hadmits]
    | process m taken =>
      obtain rfl := Option.some.inj hown
      obtain ⟨k, hloop⟩ := h.delivering m taken hadmits.1
      exact ⟨k, deliver_next h.staffed.fresh he hloop⟩
    | _ => cases hn
  · by_cases hlt : n < d.nextTask
    · rw [tasks_next d e hown (.inl hlt)] at hn ⊢
      exact h.delivering n delivery hn
    · rcases begun h.staffed.fresh he (Nat.le_of_not_lt hlt) with ⟨hidle, -⟩ | ⟨call, -, htask⟩
      · cases hidle.symm.trans hn
      · rw [htask] at hn
        cases hn

theorem Calling.next (h : d.Calling) (he : d.enabled pack e) : (d.next pack e).Calling where
  staffed := h.staffed.next he
  delivering _ _ hn := h.delivering_next he hn
  opening _ _ _ _ hn := h.opening_next he hn
  sending _ _ _ _ hn := h.sending_next he hn
  apart n m k q a b hn hm := by
    have hlt : ∀ n a, (d.tasks n).phase = .handshake k q a → q < (d.table k).io.nextQueue := by
      intro n a hphase
      have hopening := h.opening n k q a hphase
      refine (h.staffed.wellFormed.owners k).lt fun hnone => ?_
      simp [hnone, Endpoint.isOpening] at hopening
    have hf := h.staffed.fresh
    rcases handshake_of_next hf he hn with ⟨-, holdn⟩ | ⟨hqn, hown, -⟩
    · rcases handshake_of_next hf he hm with ⟨-, holdm⟩ | ⟨hqm, -, -⟩
      · exact h.apart n m k q a b holdn holdm
      · exact absurd (hlt n a holdn) (Nat.not_lt.mpr (Nat.le_of_eq hqm.symm))
    · rcases handshake_of_next hf he hm with ⟨-, holdm⟩ | ⟨-, howm, -⟩
      · exact absurd (hlt m b holdm) (Nat.not_lt.mpr (Nat.le_of_eq hqn.symm))
      · exact Option.some.inj (hown.symm.trans howm)

theorem Calling.of_reachable (h : Reachable (daemonMachine tls pack) d) : d.Calling := by
  apply h.guarded_induct
  · rintro d ⟨network, rfl⟩
    exact .new network
  · exact fun d e hd he => hd.next he

theorem Calling.host_next (h : d.Calling) (he : d.enabled pack e) (hown : e.onTask ≠ some n)
    {message : Option Frame} (hn : (d.tasks n).phase = .handshake k q message ∨
      (d.tasks n).phase = .sending k q message) :
    (((d.next pack e).table k).endpoints q).host = ((d.table k).endpoints q).host := by
  have howners := h.staffed.wellFormed.owners k
  have hhost : ∃ host, ((d.table k).endpoints q).host = some host := by
    rcases hn with hn | hn
    · have hopening := h.opening n k q message hn
      cases hq : (d.table k).endpoints q with
      | opening id address => exact ⟨id, rfl⟩
      | none | connection => simp [hq, Endpoint.isOpening] at hopening
    · obtain ⟨c, hc⟩ := h.sending n k q message hn
      exact ⟨c.remoteId, by rw [hc]; rfl⟩
  obtain ⟨host, hq⟩ := hhost
  rcases next_table he k with hs | ⟨se, hx, hen, hs⟩ | ⟨address, rfl, rfl, -⟩
  · rw [hs]
  · rw [hs, hq]
    refine howners.host_next hen hq ?_
    rcases hn with hn | hn
    · exact (h.not_ended he hn hown hx).1
    · rintro rfl
      obtain ⟨c, hc⟩ := h.sending n k q message hn
      have hopening : ((d.table k).endpoints q).isOpening = true := hen.1
      simp [hc, Endpoint.isOpening] at hopening
  · exact absurd (h.used hn) (Nat.lt_irrefl _)

theorem Calling.pending_of_ne (h : d.Calling) (he : d.enabled pack e) (hown : e.onTask ≠ some n)
    (hn : n < d.nextTask) : (d.next pack e).pending n = d.pending n := by
  unfold pending
  rw [tasks_next d e hown (.inl hn)]
  cases hphase : (d.tasks n).phase with
  | handshake k q message => simp only [callAt, h.host_next he hown (.inl hphase)]
  | sending k q message => simp only [callAt, h.host_next he hown (.inr hphase)]
  | _ => rfl

theorem pending_of_own (he : d.enabled pack e) (hown : e.onTask = some n) :
    (d.next pack e).pending n =
      (d.next pack e).callAt (d.tasks n).loop (d.nextPhase pack e) := by
  have hloop := loop_message_next he hown
  unfold pending
  rw [phase_next d hown]
  cases d.nextPhase pack e <;> simp only [callAt, hloop]

theorem Calling.pending_own (h : d.Calling) (he : d.enabled pack e) (hown : e.onTask = some n) :
    (if e.ends n then d.pending n else none).toList ++ ((d.next pack e).pending n).toList =
      (d.pending n).toList ++ (d.calls pack n e).toList := by
  have hadmits := he.1
  rw [pending_of_own he hown]
  -- A step that ends no call and begins none.
  have hkeeps : e.ends n = false → d.calls pack n e = none →
      (d.next pack e).callAt (d.tasks n).loop (d.nextPhase pack e) = d.pending n →
      (if e.ends n then d.pending n else none).toList ++
          ((d.next pack e).callAt (d.tasks n).loop (d.nextPhase pack e)).toList =
        (d.pending n).toList ++ (d.calls pack n e).toList := by
    intro hends hcalls hsame
    simp [hends, hcalls, hsame]
  cases e with
  | take m k delivery =>
    obtain rfl := Option.some.inj hown
    refine hkeeps rfl rfl ?_
    rw [pending, show d.tasks m = _ from hadmits]
    rfl
  | upstream m delivery | panicked m k delivery =>
    obtain rfl := Option.some.inj hown
    refine hkeeps rfl rfl ?_
    rw [pending, hadmits.1]
    rfl
  | process m delivery =>
    obtain rfl := Option.some.inj hown
    obtain ⟨hphase, -, hsome⟩ := hadmits
    obtain ⟨k, hloop⟩ := h.delivering m delivery hphase
    have hnone : d.pending m = none := by
      rw [pending, hphase]
      rfl
    obtain ⟨⟨network, reply⟩, hresult⟩ := Option.isSome_iff_exists.mp hsome
    cases reply <;>
      simp [DaemonEvent.ends, hnone, nextPhase, calls, hresult, callAt, hloop, Loop.message]
  | found m k q host message =>
    obtain rfl := Option.some.inj hown
    obtain ⟨hphase, -, hfound⟩ := hadmits
    obtain ⟨c, hc, hhost⟩ := (h.staffed.wellFormed.owners k).registered host q hfound
    have htable : (d.next pack (.found m k q host message)).table k = d.table k := rfl
    refine hkeeps rfl rfl ?_
    simp [nextPhase, callAt, htable, hc, Endpoint.host, hhost, pending, hphase]
  | missing m host message =>
    obtain rfl := Option.some.inj hown
    refine hkeeps rfl rfl ?_
    rw [pending, hadmits.1]
    rfl
  | choose m k host address message =>
    obtain rfl := Option.some.inj hown
    have htable : (d.next pack (.choose m k host address message)).table k =
        (d.table k).next (.openConnection host address) := table_at rfl
    refine hkeeps rfl rfl ?_
    rw [pending, hadmits.1, nextPhase, callAt, callAt, htable]
    simp [Socket.next, Socket.effect, Socket.updateEndpoint, Endpoint.host]
  | relayKnown m k relay rest | relayUnknown m k relay rest =>
    obtain rfl := Option.some.inj hown
    refine hkeeps rfl rfl ?_
    rw [pending, hadmits.1]
    rfl
  | relayOpen m k relay rest address =>
    obtain rfl := Option.some.inj hown
    have htable : (d.next pack (.relayOpen m k relay rest address)).table k =
        (d.table k).next (.openConnection relay address) := table_at rfl
    have hnone : d.pending m = none := by
      rw [pending, hadmits.1]
      rfl
    rw [nextPhase, callAt, htable, hnone, hadmits.1]
    simp [DaemonEvent.ends, calls, Socket.next, Socket.effect, Socket.updateEndpoint,
      Endpoint.host, Loop.message]
  | opened m k q session message =>
    obtain rfl := Option.some.inj hown
    have hphase : (d.tasks m).phase = .handshake k q message := hadmits
    have hopening := h.opening m k q message hphase
    have htable : (d.next pack (.opened m k q session message)).table k =
        (d.table k).next (.opened q session) := table_at rfl
    have hmessage : (d.tasks m).loop.message (d.openedMessage pack m message) =
        (d.tasks m).loop.message message := by
      unfold openedMessage
      cases (d.tasks m).loop <;> rfl
    refine hkeeps rfl rfl ?_
    rw [pending, hphase, nextPhase, callAt, callAt, htable, hmessage]
    cases hq : (d.table k).endpoints q with
    | opening id address =>
      simp [Socket.next, Socket.effect, Socket.opened, hq, Socket.updateEndpoint, Endpoint.host,
        Connection.fromTlsStream]
    | none | connection => simp [hq, Endpoint.isOpening] at hopening
  | unconnectable m host message | openFailed m k q message | send m k q frame
  | sendFailed m k q frame | returned m k q =>
    obtain rfl := Option.some.inj hown
    simp [DaemonEvent.ends, calls, nextPhase, callAt]
  | _ => cases hown

/-- A task ends the call that it is at before it begins another one. -/
theorem Calling.pending_next (h : d.Calling) (he : d.enabled pack e) (n : ℕ) :
    (if e.ends n then d.pending n else none).toList ++ ((d.next pack e).pending n).toList =
      (d.pending n).toList ++ (d.calls pack n e).toList := by
  by_cases hown : e.onTask = some n
  · exact h.pending_own he hown
  · have hends : e.ends n = false := by
      cases e with
      | unconnectable m | openFailed m | send m | sendFailed m | returned m =>
        have hm : m ≠ n := by simpa [DaemonEvent.onTask] using hown
        simp [DaemonEvent.ends, hm]
      | _ => rfl
    rw [hends]
    by_cases hn : n < d.nextTask
    · have hcalls : d.calls pack n e = none := by
        cases e with
        | sendFrame | getConnection | requestPeerInfo => exact if_neg (Nat.ne_of_lt hn)
        | process m | relayOpen m =>
          refine if_neg ?_
          rintro rfl
          exact hown rfl
        | _ => rfl
      rw [h.pending_of_ne he hown hn, hcalls]
      simp
    · have hle := Nat.le_of_not_lt hn
      have hnone : d.pending n = none := by
        unfold pending
        rw [h.staffed.fresh n hle]
        rfl
      rw [hnone]
      rcases begun h.staffed.fresh he hle with ⟨hidle, hcalls⟩ | ⟨call, hcalls, htask⟩
      · simp [pending, hidle, callAt, hcalls]
      · simp [pending, htask, callAt, hcalls, Loop.message]

/-- A task that connects to relays sends each of them a record of its own host. -/
def Relaying (pack : MessagePack) (d : Daemon tls) : Prop :=
  ∀ n k rest, (d.tasks n).loop = .relays k rest → (d.tasks n).phase = .idle ∨
    (∃ j q, (d.tasks n).phase = .handshake j q none) ∨
    ∃ j q addresses, (d.tasks n).phase = .sending j q (controlFrame
      (NetworkState.sendPeerInfo pack ⟨d.network.id, addresses, d.network.relays⟩))

theorem network_next (pack : MessagePack) (d : Daemon tls) (e : DaemonEvent tls) :
    (d.next pack e).network.id = d.network.id ∧
      (d.next pack e).network.relays = d.network.relays := by
  rcases d.next_network e with hs | ⟨n, delivery, reply, -, hresult⟩
  · rw [hs]
    exact ⟨rfl, rfl⟩
  · obtain ⟨hid, hrelays, -⟩ := NetworkState.processControlMessage_frame hresult
    exact ⟨hid, hrelays⟩

theorem Relaying.next (h : d.Relaying pack) (hf : d.Fresh) (he : d.enabled pack e) :
    (d.next pack e).Relaying pack := by
  intro n k rest hloop
  obtain ⟨hid, hrelays⟩ := network_next pack d e
  rw [hid, hrelays]
  by_cases hown : e.onTask = some n
  · have hold : ∃ j rest, (d.tasks n).loop = .relays j rest := by
      have hmessage := congrFun (loop_message_next he hown) (some .ping)
      rw [hloop] at hmessage
      cases hn : (d.tasks n).loop with
      | relays j rest => exact ⟨j, rest, rfl⟩
      | once | deliver => simp [hn, Loop.message] at hmessage
    obtain ⟨j, rest, hold⟩ := hold
    have hphase := h n j rest hold
    have hadmits := he.1
    rw [phase_next d hown]
    cases e with
    | relayOpen m k' relay rest' address => exact .inr (.inl ⟨_, _, rfl⟩)
    | opened m k' q session message =>
      obtain rfl := Option.some.inj hown
      refine .inr (.inr ⟨k', q, d.sockets.keys, ?_⟩)
      simp only [nextPhase, openedMessage, hold]
      rfl
    | take m k' delivery =>
      obtain rfl := Option.some.inj hown
      rw [show d.tasks m = _ from hadmits] at hold
      cases hold
    | panicked m k' delivery =>
      obtain rfl := Option.some.inj hown
      rw [hadmits.1] at hold
      cases hold
    | process m delivery | found m k' q host message | missing m host message
    | choose m k' host address message =>
      obtain rfl := Option.some.inj hown
      rw [hadmits.1] at hphase
      simp at hphase
    | upstream | unconnectable | relayKnown | relayUnknown | openFailed | send | sendFailed
    | returned => exact .inl rfl
    | _ => cases hown
  · by_cases hn : n < d.nextTask
    · rw [tasks_next d e hown (.inl hn)] at hloop ⊢
      exact h n k rest hloop
    · rcases begun hf he (Nat.le_of_not_lt hn) with ⟨hidle, -⟩ | ⟨call, -, htask⟩
      · exact .inl hidle
      · rw [htask] at hloop
        cases hloop

theorem Relaying.of_reachable (h : Reachable (daemonMachine tls pack) d) : d.Relaying pack := by
  have hinv : d.Fresh ∧ d.Relaying pack := by
    apply h.guarded_induct (P := fun d => d.Fresh ∧ d.Relaying pack)
    · rintro d ⟨network, rfl⟩
      exact ⟨.new network, fun _ _ _ hloop => by cases hloop⟩
    · exact fun d e hd he => ⟨hd.1.next he, hd.2.next hd.1 he⟩
  exact hinv.2

/-- A frame that is sent is that of the call, and goes to the host of the call. -/
theorem Calling.send_enabled (h : d.Calling) (hrelaying : d.Relaying pack) {frame : Frame}
    (he : d.enabled pack (.send n k q frame)) :
    ∃ c, (d.table k).endpoints q = .connection c ∧
      (d.pending n = some ⟨c.remoteId, some frame⟩ ∨
        d.pending n = some ⟨c.remoteId, none⟩ ∧ ∃ addresses, controlFrame
          (NetworkState.sendPeerInfo pack ⟨d.network.id, addresses, d.network.relays⟩) =
            some frame) := by
  have hphase : (d.tasks n).phase = .sending k q (some frame) := he.1
  obtain ⟨c, hc⟩ := h.sending n k q _ hphase
  refine ⟨c, hc, ?_⟩
  have hpending : d.pending n = some ⟨c.remoteId, (d.tasks n).loop.message (some frame)⟩ := by
    rw [pending, hphase, callAt, hc]
    rfl
  cases hloop : (d.tasks n).loop with
  | relays j rest =>
    right
    rw [hpending, hloop]
    refine ⟨rfl, ?_⟩
    rcases hrelaying n j rest hloop with hidle | ⟨j', q', hhandshake⟩ |
      ⟨j', q', addresses, hsending⟩
    · cases hphase.symm.trans hidle
    · cases hphase.symm.trans hhandshake
    · exact ⟨addresses, (Phase.sending.inj (hphase.symm.trans hsending)).2.2.symm⟩
  | once | deliver =>
    left
    rw [hpending, hloop]
    rfl

end Daemon

/-- A task ends each call before it begins another one, and what it sends is the frame of the call
that it is at, over a connection that bears the identifier of the host of this call. -/
theorem sends_serve_calls (r : Run (daemonMachine tls pack)) (n : ℕ) :
    let calls := r.transitions.filterMap fun x => x.source.calls pack n x.label
    let ended := r.transitions.filterMap fun x =>
      if x.label.ends n then x.source.pending n else none
    ended ++ (r.final.pending n).toList = calls ∧
      ∀ x ∈ r.transitions, ∀ k q frame, x.label = .send n k q frame →
        ∃ c, (x.source.table k).endpoints q = .connection c ∧
          (x.source.pending n = some ⟨c.remoteId, some frame⟩ ∨
            x.source.pending n = some ⟨c.remoteId, none⟩ ∧ ∃ addresses, controlFrame
              (NetworkState.sendPeerInfo pack
                ⟨x.source.network.id, addresses, x.source.network.relays⟩) = some frame) := by
  constructor
  · obtain ⟨network, hstart⟩ := r.starts
    have hflow := r.path.flow (fun d => (d.pending n).toList)
      (fun x => (if x.label.ends n then x.source.pending n else none).toList)
      (fun x => (x.source.calls pack n x.label).toList) fun x hx => by
        obtain ⟨he, hnext⟩ := guarded_step.mp (r.path.step_of_mem hx)
        exact hnext ▸ (Daemon.Calling.of_reachable (r.reachable_of_mem hx).1).pending_next he n
    simpa [hstart, Daemon.pending, Daemon.new, Daemon.callAt, ← List.filterMap_eq_flatMap_toList]
      using hflow
  · intro x hx k q frame hlabel
    obtain ⟨he, -⟩ := guarded_step.mp (r.path.step_of_mem hx)
    have hsource := (r.reachable_of_mem hx).1
    rw [hlabel] at he
    exact (Daemon.Calling.of_reachable hsource).send_enabled (.of_reachable hsource) he

section Dials

/-- The record of its own that a host announces to the daemon. -/
def DaemonEvent.announces (pack : MessagePack) (host : Identifier) : DaemonEvent tls → Option Peer
  | .process _ delivery => NetworkState.ownRecord pack host delivery.hostId delivery.data
  | _ => none

/-- The record of a host is the last one it has announced, or the one at the start. -/
theorem getPeer_of_path {d d' : Daemon tls}
    {trace : List (Transition (Daemon tls) (DaemonEvent tls))}
    (path : Path (daemonMachine tls pack) d trace d') (host : Identifier) :
    d'.network.pib.getPeer host =
      (trace.filterMap fun x => x.label.announces pack host).getLast?.or
        (d.network.pib.getPeer host) := by
  induction path with
  | nil => rfl
  | @snoc t u trace e prior next ih =>
    obtain ⟨he, rfl⟩ := guarded_step.mp next
    have hstep : (t.next pack e).network.pib.getPeer host =
        (e.announces pack host).or (t.network.pib.getPeer host) := by
      rcases t.next_network e with hs | ⟨n, delivery, reply, rfl, hresult⟩
      · cases e with
        | process n delivery =>
          obtain ⟨⟨network, reply⟩, hresult⟩ := Option.isSome_iff_exists.mp he.1.2.2
          have hnetwork : (t.next pack (.process n delivery)).network = network := by
            simp only [Daemon.next, Daemon.effect, Daemon.processDelivery, hresult]
            cases reply <;> rfl
          rw [hnetwork]
          exact NetworkState.processControlMessage_getPeer hresult host
        | _ =>
          rw [hs]
          rfl
      · exact NetworkState.processControlMessage_getPeer hresult host
    rw [hstep, ih, List.filterMap_append, List.getLast?_append]
    cases ha : e.announces pack host <;> simp [ha]

/-- A daemon that opens a connection to a host has its record. -/
theorem dial_address {d : Daemon tls} {e : DaemonEvent tls} (he : d.enabled pack e) {k : ℕ}
    {host : Identifier} {address : SocketAddrV6}
    (hx : e.onSocket = some (k, .openConnection host address)) :
    ∃ peer, d.network.pib.getPeer host = some peer ∧ peer.addresses.head? = some address := by
  have hadmits := he.1
  cases e with
  | socket j se =>
    obtain ⟨-, rfl⟩ := Prod.mk.inj (Option.some.inj hx)
    cases hadmits.2
  | choose n j host' address' message =>
    obtain ⟨-, hopen⟩ := Prod.mk.inj (Option.some.inj hx)
    obtain ⟨rfl, rfl⟩ := SocketEvent.openConnection.inj hopen
    exact Option.bind_eq_some_iff.mp hadmits.2.1
  | relayOpen n j relay rest address' =>
    obtain ⟨-, hopen⟩ := Prod.mk.inj (Option.some.inj hx)
    obtain ⟨rfl, rfl⟩ := SocketEvent.openConnection.inj hopen
    exact Option.bind_eq_some_iff.mp hadmits.2.2
  | closeSocket | take | panicked | opened | openFailed | send =>
    obtain ⟨-, hopen⟩ := Prod.mk.inj (Option.some.inj hx)
    cases hopen
  | _ => cases hx

/-- A daemon opens a connection to a host only at the first address of the record that this host
has announced last, or that the daemon had of it at the start. -/
theorem dials_announced (r : Run (daemonMachine tls pack))
    {before after : List (Transition (Daemon tls) (DaemonEvent tls))}
    {x : Transition (Daemon tls) (DaemonEvent tls)} (hrun : r.transitions = before ++ x :: after)
    {k : ℕ} {host : Identifier} {address : SocketAddrV6}
    (hdial : x.label.onSocket = some (k, .openConnection host address)) :
    ∃ peer, (before.filterMap fun y => y.label.announces pack host).getLast?.or
      (r.start.network.pib.getPeer host) = some peer ∧ peer.addresses.head? = some address := by
  have hx : x ∈ r.transitions := by simp [hrun]
  obtain ⟨he, -⟩ := guarded_step.mp (r.path.step_of_mem hx)
  obtain ⟨peer, hpeer, haddress⟩ := dial_address he hdial
  rw [getPeer_of_path (r.path.before hrun) host] at hpeer
  exact ⟨peer, hpeer, haddress⟩

/-- A daemon connects to a host at the address that it knew from the start. -/
theorem dials_announced_configured : ∃ r : Run (daemonMachine keyTls waitingPack),
    ∃ before after x, r.transitions = before ++ x :: after ∧
      ∃ peer, (before.filterMap fun y => y.label.announces waitingPack digestOne).getLast?.or
        (r.start.network.pib.getPeer digestOne) = some peer ∧
          peer.addresses.head? = some hostAddr := by
  let dial : DaemonEvent keyTls := .choose 2 0 digestOne hostAddr (some (.data 5 6 []))
  have hinit : (daemonMachine keyTls waitingPack).init (.new keyTls waitingNetwork) := ⟨_, rfl⟩
  obtain ⟨r, -, x, hx, hlabel, -⟩ := exec_visits hinit (connectingEvents.take 3) dial
    (p := fun _ => true) (q := fun _ => true) (by decide +kernel)
  obtain ⟨before, after, hrun⟩ := List.append_of_mem hx
  exact ⟨r, before, after, x, hrun, dials_announced r hrun (by rw [hlabel]; rfl)⟩

end Dials

end Uip
