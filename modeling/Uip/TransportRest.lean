import Uip.TransportSocketInvariant

/-! Where no task of a transport socket can go on without the network, a timer or the end of a
handshake, nothing is left in its channels unless one of them waits for a handshake. -/
namespace Uip
open TransitionSystem Transport

variable {tls : Tls}

namespace Io.Socket

variable {s : Socket} {e : Event} {q : ℕ}

/-- The queue that the read task has just made is empty, and a new-connection channel without a
receiver is. -/
structure Handing (s : Socket) : Prop where
  first : ∀ d q, s.readTask = .sending d q true → (s.queues q).datagrams.items = []
  closed : s.acceptor = false → s.incoming.items = []

theorem Handing.bind : bind.Handing where
  first _ _ h := by cases h
  closed _ := rfl

theorem first_next (h : s.Handing) (hw : s.WellFormed) (he : s.enabled e) {d : Datagram}
    (hread : (s.next e).readTask = .sending d q true) :
    ((s.next e).queues q).datagrams.items = [] := by
  have kept : (s.next e).readTask = s.readTask → (∀ d b, e ≠ .send d q b) →
      ((s.next e).queues q).datagrams.items = [] := by
    intro hsame hsend
    rw [hsame] at hread
    have hnil := h.first d q hread
    have hlt := (hw.target d.source q (by rw [hread]; rfl)).1
    rcases s.next_queue e hlt with hq | ⟨d, b, rfl, -⟩ | ⟨d, -, hq⟩ | ⟨-, hq⟩
    · rw [hq, hnil]
    · exact absurd rfl (hsend d b)
    · rw [hq, pop_items, hnil, List.tail_nil]
    · rw [hq]
      rfl
  cases e with
  | datagram bytes remote =>
    obtain ⟨p, b, hp, hlookup⟩ := s.lookup_readTask bytes remote
    obtain ⟨-, rfl, rfl⟩ := ReadTask.sending.inj (hp.symm.trans hread)
    rcases hlookup with ⟨-, hfalse⟩ | ⟨hnone, rfl, -⟩
    · cases hfalse
    · rw [(datagram_fresh bytes hnone).2]
      rfl
  | insert remote p b => cases b <;> cases hread
  | send | sendClosed | offer | offerClosed | recvError | closed => cases hread
  | close | connect | take | read | drop | dropAcceptor => exact kept rfl (by simp)

theorem Handing.next (h : s.Handing) (hw : s.WellFormed) (he : s.enabled e) :
    (s.next e).Handing where
  first _ _ hread := first_next h hw he hread
  closed hclosed := by
    rw [next_acceptor] at hclosed
    rw [next_incoming he]
    cases e with
    | dropAcceptor => rfl
    | offer p => exact absurd (hclosed.symm.trans he.2.1) (by simp)
    | take p => exact absurd (hclosed.symm.trans he.1) (by simp)
    | _ => exact h.closed (by simpa using hclosed)

theorem Handing.of_reachable (h : Reachable machine s) : s.Handing := by
  have hinv : s.WellFormed ∧ s.Handing := by
    apply h.guarded_induct (P := fun s => s.WellFormed ∧ s.Handing)
    · rintro s rfl
      exact ⟨.bind, .bind⟩
    · exact fun s e hs he => ⟨hs.1.next he, hs.2.next hs.1 he⟩
  exact hinv.2

theorem receiver_of_drops (h : s.drops e q) : ((s.next e).queues q).receiver = false := by
  rcases h with rfl | rfl | ⟨rfl, hq⟩
  · simp [next, updateQueue]
  · simp [next, updateQueue]
  · simp [next, hq]

/-- A connection stays on its way to the accept task until this takes it or it is dropped. -/
theorem held_next (h : s.Handover) (he : s.enabled e) (hq : s.held q) (hdrop : ¬ s.drops e q)
    (htake : e ≠ .take q) : (s.next e).held q := by
  rcases hq with hholds | hincoming
  · cases e with
    | datagram | recvError => rw [show s.readTask = _ from he] at hholds; cases hholds
    | closed => rw [he.1] at hholds; cases hholds
    | send d p b =>
      rw [he.1] at hholds
      cases b with
      | true => exact .inl hholds
      | false => cases hholds
    | sendClosed d p b =>
      have halive := h.alive q (.inl hholds)
      rw [he.1] at hholds
      cases b with
      | true =>
        obtain rfl := Option.some.inj hholds
        exact absurd (halive.symm.trans he.2) (by simp)
      | false => cases hholds
    | insert remote p b =>
      rw [show s.readTask = _ from he] at hholds
      cases b with
      | true => exact .inl hholds
      | false => cases hholds
    | offer p =>
      rw [he.1] at hholds
      obtain rfl := Option.some.inj hholds
      right
      rw [next_incoming he]
      simp
    | offerClosed p =>
      rw [he.1] at hholds
      obtain rfl := Option.some.inj hholds
      exact absurd (.inr (.inl rfl)) hdrop
    | close | connect | take | read | drop | dropAcceptor => exact .inl hholds
  · right
    rw [next_incoming he]
    cases e with
    | offer p => exact List.mem_append_left _ hincoming
    | take p =>
      obtain ⟨rest, hitems⟩ := List.head?_eq_some_iff.mp he.2
      rw [hitems] at hincoming ⊢
      rcases List.mem_cons.mp hincoming with rfl | hrest
      · exact absurd rfl htake
      · exact hrest
    | dropAcceptor => exact absurd (.inr (.inr ⟨rfl, hincoming⟩)) hdrop
    | _ => exact hincoming

end Io.Socket

namespace Transport.Socket

variable {s : Socket tls} {e : SocketEvent tls} {q : ℕ}

theorem live_update {p : ℕ} {f : Connection tls → Connection tls} (h : (s.endpoints q).live)
    (hf : ∀ c, (f c).stream = c.stream) : ((s.updateConnection p f).endpoints q).live := by
  by_cases hq : q = p
  · subst hq
    simp only [updateConnection, updateEndpoint, Function.update_self]
    cases hc : s.endpoints q with
    | connection c =>
      rw [hc] at h
      exact (hf c).trans h
    | none => simp [hc, Endpoint.live] at h
    | opening => trivial
  · simpa only [updateConnection, updateEndpoint, Function.update_of_ne hq] using h

theorem live_put {p : ℕ} {endpoint : Endpoint tls} (h : (s.endpoints q).live)
    (hlive : endpoint.live) : ((s.updateEndpoint p endpoint).endpoints q).live := by
  by_cases hq : q = p
  · subst hq
    simpa only [updateEndpoint, Function.update_self] using hlive
  · simpa only [updateEndpoint, Function.update_of_ne hq] using h

/-- Only by a failed handshake, or when both its tasks have ended, an endpoint gives up its
connection of the demultiplexer. -/
theorem live_next (e : SocketEvent tls) (h : (s.endpoints q).live) :
    ((s.next e).endpoints q).live ∨ e = .openFailed q ∨ e = .release q := by
  rw [next_endpoints]
  cases e with
  | reader | accept | openRead | take | dropReceiver | close => exact .inl h
  | accepted p session =>
    left
    simp only [effect, Socket.accepted]
    split
    · exact live_put h rfl
    · exact h
  | register p =>
    left
    simp only [effect, Socket.register]
    split <;> exact h
  | openConnection id address => exact .inl (live_put h trivial)
  | openFailed p =>
    by_cases hq : q = p
    · exact .inr (.inl (by rw [hq]))
    · left
      simpa only [effect, updateEndpoint, Function.update_of_ne hq] using h
  | opened p session =>
    left
    simp only [effect, Socket.opened]
    split
    · exact live_put h rfl
    · exact h
  | receive | deliverClosed => exact .inl (live_update h fun _ => rfl)
  | connection p e => exact .inl (live_update h fun c => c.next_stream e)
  | deliver p =>
    left
    simp only [effect, Socket.deliver]
    split
    · split
      · exact live_update h fun _ => rfl
      · exact h
    · exact h
  | release p =>
    by_cases hq : q = p
    · exact .inr (.inr (by rw [hq]))
    · left
      simpa only [effect, updateConnection, updateEndpoint, Function.update_of_ne hq] using h

theorem owns_next (he : s.enabled e) (h : s.acceptor.task.owns = some q) :
    (s.next e).acceptor.task.owns = some q ∨ e = .accept (.abandon q) ∨
      ∃ session, e = .accepted q session := by
  rw [next_acceptor]
  cases ha : e.onAcceptor with
  | none => exact .inl h
  | some a =>
    have hen := enabled_acceptor he ha
    have howns : ∀ p, s.acceptor.task.owns = some p → p = q := fun p hp =>
      Option.some.inj (hp.symm.trans h)
    rw [Option.elim_some]
    cases a with
    | io i => exact .inl h
    | take p | ended =>
      rw [hen.1] at h
      cases h
    | register p =>
      rw [show s.acceptor.task = _ from hen] at h
      cases h
    | await p =>
      obtain rfl := howns p (by rw [show s.acceptor.task = _ from hen]; rfl)
      exact .inl rfl
    | read p d | eof p =>
      obtain rfl := howns p (by rw [hen.1]; rfl)
      exact .inl rfl
    | abandon p =>
      obtain rfl := howns p (by rw [hen.1]; rfl)
      cases e with
      | accept a =>
        obtain rfl := Option.some.inj ha
        exact .inr (.inl rfl)
      | _ => cases ha
    | finish p =>
      obtain rfl := howns p (by rw [show s.acceptor.task = _ from hen]; rfl)
      cases e with
      | accept a =>
        obtain rfl := Option.some.inj ha
        exact absurd he.1 (by simp [admits, AcceptEvent.handshaking])
      | accepted p' session =>
        obtain rfl := AcceptEvent.finish.inj (Option.some.inj ha)
        exact .inr (.inr ⟨session, rfl⟩)
      | _ => cases ha

theorem receiver_next (s : Socket tls) (hdrop : e ≠ .dropReceiver) :
    (s.next e).receiver = s.receiver := by
  simp only [next]
  cases e with
  | dropReceiver => exact absurd rfl hdrop
  | accepted q session =>
    simp only [effect, Socket.accepted]
    split <;> rfl
  | opened q session =>
    simp only [effect, Socket.opened]
    split <;> rfl
  | register q =>
    simp only [effect, Socket.register]
    split <;> rfl
  | deliver q =>
    simp only [effect, Socket.deliver]
    split
    · split <;> rfl
    · rfl
  | _ => rfl

/-- A connection of the demultiplexer that exists has someone who uses it. -/
structure Kept (s : Socket tls) : Prop where
  handing : s.io.Handing
  kept : ∀ q, q < s.io.nextQueue → (s.io.queues q).receiver = true →
    s.io.held q ∨ s.acceptor.task.owns = some q ∨ (s.endpoints q).live

theorem Kept.new : (new tls).Kept where
  handing := .bind
  kept q h := by cases h

theorem Kept.old (h : s.Kept) (hw : s.Owners) (he : s.enabled e) (hq : q < s.io.nextQueue)
    (receiver : ((s.next e).io.queues q).receiver = true) : (s.next e).io.held q ∨
      (s.next e).acceptor.task.owns = some q ∨ ((s.next e).endpoints q).live := by
  have hdrop : ∀ i, e.onAcceptor.bind AcceptEvent.onIo = some i → ¬ s.io.drops i q := by
    intro i hi hdrops
    rw [next_io, hi, Option.elim_some, Io.Socket.receiver_of_drops hdrops] at receiver
    cases receiver
  have hreceiver : (s.io.queues q).receiver = true := by
    rw [next_io] at receiver
    cases hi : e.onAcceptor.bind AcceptEvent.onIo with
    | none => simpa [hi] using receiver
    | some i => exact s.io.receiver_of_next i hq (by simpa [hi] using receiver)
  rcases h.kept q hq hreceiver with hheld | howns | hlive
  · cases hi : e.onAcceptor.bind AcceptEvent.onIo with
    | none =>
      left
      rw [next_io, hi]
      exact hheld
    | some i =>
      by_cases htake : i = .take q
      · subst htake
        cases onIo_of_enabled he hi with
        | reader hread => cases hread
        | take => exact .inr (.inl rfl)
      · left
        rw [next_io, hi]
        exact Io.Socket.held_next hw.acceptor.handover (enabled_io he hi) hheld (hdrop i hi) htake
  · rcases owns_next he howns with hstill | rfl | ⟨session, rfl⟩
    · exact .inr (.inl hstill)
    · exact absurd (.inl rfl) (hdrop (.drop q) rfl)
    · obtain ⟨id, hid⟩ := Option.isSome_iff_exists.mp he.1
      right
      right
      simp [next_endpoints, effect, Socket.accepted, hid, updateEndpoint, Endpoint.live,
        Connection.fromTlsStream]
  · rcases live_next e hlive with hstill | rfl | rfl
    · exact .inr (.inr hstill)
    · exact absurd (.inl rfl) (hdrop (.drop q) rfl)
    · exact absurd (.inl rfl) (hdrop (.drop q) rfl)

theorem kept_new (he : s.enabled e) (hq : s.io.nextQueue ≤ q)
    (hlt : q < (s.next e).io.nextQueue) :
    (s.next e).io.held q ∨ ((s.next e).endpoints q).live := by
  rw [next_io] at hlt ⊢
  cases hi : e.onAcceptor.bind AcceptEvent.onIo with
  | none =>
    rw [hi] at hlt
    exact absurd hlt (Nat.not_lt.mpr hq)
  | some i =>
    rw [hi, Option.elim_some] at hlt
    rw [Option.elim_some]
    rcases s.io.next_fresh i with ⟨hsame, -⟩ | ⟨hmore, ⟨bytes, remote, rfl, hnone, -⟩ |
      ⟨address, rfl, -⟩⟩
    · omega
    · obtain rfl : q = s.io.nextQueue := by omega
      left
      left
      simp [Io.Socket.next, Io.Socket.lookup, hnone, Io.ReadTask.holds]
    · obtain rfl : q = s.io.nextQueue := by omega
      right
      cases onIo_of_enabled he hi with
      | reader hread => cases hread
      | connect id address =>
        simp [next_endpoints, effect, updateEndpoint, Endpoint.live]

theorem Kept.next (h : s.Kept) (hw : s.Owners) (he : s.enabled e) : (s.next e).Kept where
  handing := by
    apply io_next (P := Io.Socket.Handing) h.handing
    exact fun i hi => h.handing.next hw.acceptor.wellFormed (enabled_io he hi)
  kept q hlt hreceiver := by
    by_cases hq : q < s.io.nextQueue
    · exact h.old hw he hq hreceiver
    · exact (kept_new he (Nat.le_of_not_lt hq) hlt).imp_right .inr

theorem Kept.of_reachable (h : Reachable (socketMachine tls) s) : s.Kept := by
  have hinv : s.Owners ∧ s.Kept := by
    apply h.guarded_induct (P := fun s => s.Owners ∧ s.Kept)
    · rintro s rfl
      exact ⟨.new, .new⟩
    · exact fun s e hs he => ⟨hs.1.next he, hs.2.next hs.1 he⟩
  exact hinv.2

end Transport.Socket

namespace Transport

/-- The steps of the three tasks that wait neither for the network nor for a timer. -/
def ConnectionEvent.prompt : ConnectionEvent → Bool
  | .timeout | .decodeError | .endOfStream | .writeError _ | .tick | .send _ => false
  | _ => true

/-- The steps that a transport socket makes without the network, timers, handshakes and calls. -/
def SocketEvent.prompt : SocketEvent tls → Bool
  | .reader (.datagram ..) | .reader .recvError => false
  | .reader e => e.ofReadTask
  | .accept (.take _) | .accept .ended => true
  | .register _ | .receive .. | .deliver _ | .deliverClosed _ | .release _ => true
  | .connection _ e => e.prompt
  | _ => false

namespace Connection

variable {c : Connection tls}

def AtRest (c : Connection tls) : Prop := ∀ e : ConnectionEvent, e.prompt = true → ¬ c.enabled e

/-- The tasks have nothing to do, except that the read task may have a tuple for the channel. -/
structure Settled (c : Connection tls) : Prop where
  writes : c.writeTask = .receiving ∧ c.sink.items = [] ∧ c.readTask ≠ .ended ∨
    c.writeTask = .ended
  pings : c.pingTask = .waiting ∧ c.readTask ≠ .ended ∨ c.pingTask = .ended
  reads : c.readTask = .reading ∧ c.decoded = [] ∨ c.delivery.isSome = true ∨ c.readTask = .ended

namespace AtRest

theorem writes (rest : c.AtRest) :
    c.writeTask = .receiving ∧ c.sink.items = [] ∧ c.readTask ≠ .ended ∨ c.writeTask = .ended := by
  cases hw : c.writeTask with
  | receiving =>
    refine .inl ⟨rfl, ?_, fun hread => rest .writeClosed rfl ⟨hw, hread⟩⟩
    cases hsink : c.sink.items with
    | nil => rfl
    | cons f items => exact absurd ⟨hw, by rw [hsink]; rfl⟩ (rest (.takeFrame f) rfl)
  | sending f => exact absurd hw (rest (.written f) rfl)
  | ended => exact .inr rfl

theorem accepts_or_ended (rest : c.AtRest) : c.accepts ∨ c.writeTask = .ended := by
  rcases rest.writes with ⟨hw, hsink, -⟩ | hw
  · refine .inl ⟨by simp [hw], ?_⟩
    simp [BoundedQueue.full, hsink]
  · exact .inr hw

theorem settled (rest : c.AtRest) : c.Settled where
  writes := rest.writes
  pings := by
    cases hp : c.pingTask with
    | waiting => exact .inl ⟨rfl, fun hread => rest .pingClosed rfl ⟨hp, hread⟩⟩
    | sending =>
      rcases rest.accepts_or_ended with haccepts | hw
      · exact absurd ⟨hp, haccepts⟩ (rest .ping rfl)
      · exact absurd ⟨hp, hw⟩ (rest .pingFailed rfl)
    | ended => exact .inr rfl
  reads := by
    cases hr : c.readTask with
    | reading =>
      refine .inl ⟨rfl, ?_⟩
      cases hd : c.decoded with
      | nil => rfl
      | cons f frames => exact absurd ⟨hr, by rw [hd]; rfl⟩ (rest (.frame f) rfl)
    | sendingPong =>
      rcases rest.accepts_or_ended with haccepts | hw
      · exact absurd ⟨hr, haccepts⟩ (rest .pong rfl)
      · exact absurd ⟨hr, hw⟩ (rest .pongFailed rfl)
    | sendingData srcPort dstPort data => exact .inr (.inl (by simp [delivery, hr]))
    | ended => exact .inr (.inr rfl)

end AtRest

theorem Settled.atRest (settled : c.Settled) : c.AtRest := by
  have hdelivery : ∀ task, c.readTask = task → c.delivery.isSome = true →
      ∃ srcPort dstPort data, task = .sendingData srcPort dstPort data := by
    rintro task rfl hd
    cases hr : c.readTask <;> simp [delivery, hr] at hd ⊢
  rintro e prompt he
  cases e with
  | frame f =>
    rcases settled.reads with ⟨-, hnil⟩ | hd | hended
    · simp [enabled, hnil] at he
    · obtain ⟨_, _, _, htask⟩ := hdelivery _ he.1 hd
      cases htask
    · cases he.1.symm.trans hended
  | pong | pongFailed =>
    rcases settled.reads with ⟨hread, -⟩ | hd | hended
    · cases he.1.symm.trans hread
    · obtain ⟨_, _, _, htask⟩ := hdelivery _ he.1 hd
      cases htask
    · cases he.1.symm.trans hended
  | takeFrame f =>
    rcases settled.writes with ⟨-, hnil, -⟩ | hended
    · simp [enabled, hnil] at he
    · cases he.1.symm.trans hended
  | written f =>
    rcases settled.writes with ⟨hreceiving, -⟩ | hended
    · cases hreceiving.symm.trans he
    · cases hended.symm.trans he
  | writeClosed =>
    rcases settled.writes with ⟨-, -, hread⟩ | hended
    · exact hread he.2
    · cases he.1.symm.trans hended
  | ping | pingFailed =>
    rcases settled.pings with ⟨hwaiting, -⟩ | hended
    · cases he.1.symm.trans hwaiting
    · cases he.1.symm.trans hended
  | pingClosed =>
    rcases settled.pings with ⟨-, hread⟩ | hended
    · exact hread he.2
    · cases he.1.symm.trans hended
  | timeout | decodeError | endOfStream | writeError | tick | send => cases prompt

end Connection

namespace Socket

variable {s : Socket tls} {q : ℕ} {c : Connection tls}

def AtRest (s : Socket tls) : Prop := ∀ e : SocketEvent tls, e.prompt = true → ¬ s.enabled e

/-- No handshake is under way. -/
def Calm (s : Socket tls) : Prop :=
  s.acceptor.task.owns = none ∧ ∀ q, (s.endpoints q).isOpening = false

/-- The tasks wait for the network or have ended, and no channel but the data channel and the sinks
of ended write tasks holds anything. -/
structure Drained (s : Socket tls) : Prop where
  connection : ∀ q c, s.endpoints q = .connection c →
    c.Settled ∧ c.delivery = none ∧ (c.readTask = .ended → c.stream = false)
  reads : s.io.readTask = .receiving ∧ s.io.closeSent = false ∨ s.io.readTask = .ended
  accepts : s.acceptor.task = .receiving ∧ s.io.readTask = .receiving ∨ s.acceptor.task = .ended
  incoming : s.io.incoming.items = []
  queues : ∀ q, q < s.io.nextQueue → (s.io.queues q).receiver = true →
    (s.io.queues q).datagrams.items = []

theorem Drained.new : (new tls).Drained where
  connection q c hc := by cases hc
  reads := .inl ⟨rfl, rfl⟩
  accepts := .inl ⟨rfl, rfl⟩
  incoming := rfl
  queues q hq := by cases hq

namespace AtRest

theorem connection (rest : s.AtRest) (hc : s.endpoints q = .connection c) : c.AtRest := by
  intro e prompt he
  refine rest (.connection q e) prompt ⟨?_, trivial⟩
  rw [admits, hc]
  exact he

variable (rest : s.AtRest) (hw : s.Owners)

include rest

theorem delivery (flows : s.receiver = true → s.deliverFrame.full = false)
    (hc : s.endpoints q = .connection c) : c.delivery = none := by
  by_contra hne
  have hsome : (s.endpoints q).satisfies fun c => c.delivery.isSome = true := by
    rw [hc]
    exact Option.isSome_iff_ne_none.mpr hne
  cases hreceiver : s.receiver with
  | true => exact rest (.deliver q) rfl ⟨⟨hreceiver, flows hreceiver, hsome⟩, trivial⟩
  | false => exact rest (.deliverClosed q) rfl ⟨⟨hreceiver, hsome⟩, trivial⟩

include hw

theorem stream (hc : s.endpoints q = .connection c) (hended : c.readTask = .ended) :
    c.stream = false := by
  rw [← Bool.not_eq_true]
  intro hstream
  have hwrite : c.writeTask = .ended := by
    rcases (rest.connection hc).settled.writes with ⟨-, -, hread⟩ | hwrite
    · exact absurd hended hread
    · exact hwrite
  have hlive : (s.endpoints q).live := by
    rw [hc]
    exact hstream
  refine rest (.release q) rfl ⟨?_, hw.drop_enabled hlive⟩
  rw [admits, hc]
  exact ⟨hstream, hended, hwrite⟩

theorem incoming (handing : s.io.Handing) (calm : s.Calm) :
    (s.acceptor.task = .receiving ∨ s.acceptor.task = .ended) ∧ s.io.incoming.items = [] := by
  have hnone := calm.1
  cases htask : s.acceptor.task with
  | receiving =>
    refine ⟨.inl rfl, ?_⟩
    cases hitems : s.io.incoming.items with
    | nil => rfl
    | cons q items =>
      have hopen : s.io.acceptor = true := hw.acceptor.acceptor.mpr (by simp [htask])
      have hhead : s.io.incoming.items.head? = some q := by rw [hitems]; rfl
      exact absurd ⟨rfl, htask, hopen, hhead⟩ (rest (.accept (.take q)) rfl)
  | handshake q | awaiting q =>
    rw [htask] at hnone
    cases hnone
  | registering q => exact absurd ⟨trivial, htask⟩ (rest (.register q) rfl)
  | ended =>
    have hclosed : s.io.acceptor = false := by
      rw [← Bool.not_eq_true]
      exact fun hopen => hw.acceptor.acceptor.mp hopen htask
    exact ⟨.inr rfl, handing.closed hclosed⟩

variable (flows : s.receiver = true → s.deliverFrame.full = false)
  (calm : s.Calm)

include flows calm

theorem queue_of_live (hlive : (s.endpoints q).live) :
    (s.io.queues q).datagrams.items = [] := by
  cases hitems : (s.io.queues q).datagrams.items with
  | nil => rfl
  | cons d items =>
    have hhead : (s.io.queues q).datagrams.items.head? = some d := by rw [hitems]; rfl
    cases hc : s.endpoints q with
    | none =>
      rw [hc] at hlive
      exact hlive.elim
    | opening id address =>
      have hnot := calm.2 q
      rw [hc] at hnot
      cases hnot
    | connection c =>
      rcases (rest.connection hc).settled.reads with hreading | hdelivery | hended
      · refine absurd ⟨?_, hw.read_enabled hlive hhead⟩ (rest (.receive q d []) rfl)
        rw [admits, hc]
        exact hreading
      · simp [rest.delivery flows hc] at hdelivery
      · rw [hc] at hlive
        exact absurd (hlive.symm.trans (rest.stream hw hc hended)) (by simp)

variable (hk : s.Kept)

include hk

theorem unused (hq : q < s.io.nextQueue) (hreceiver : (s.io.queues q).receiver = true)
    (hholds : s.io.readTask.holds = none) : (s.io.queues q).datagrams.items = [] := by
  rcases hk.kept q hq hreceiver with (hheld | hincoming) | howns | hlive
  · cases hheld.symm.trans hholds
  · rw [(rest.incoming hw hk.handing calm).2] at hincoming
    cases hincoming
  · cases howns.symm.trans calm.1
  · exact rest.queue_of_live hw flows calm hlive

/-- The UDP read task waits for datagrams, or has ended. -/
theorem reads :
    s.io.readTask = .receiving ∧ s.io.closeSent = false ∨ s.io.readTask = .ended := by
  have idle : ∀ e : Io.Event, (SocketEvent.reader e : SocketEvent tls).prompt = true →
      e.ofReadTask = true → s.acceptor.foreign e → ¬ s.io.enabled e :=
    fun e prompt hread hforeign he => rest (.reader e) prompt ⟨hread, hforeign, he⟩
  cases hread : s.io.readTask with
  | receiving =>
    refine .inl ⟨rfl, ?_⟩
    rw [← Bool.not_eq_true]
    exact fun hclose => idle .closed rfl rfl trivial ⟨hread, hclose⟩
  | sending d q b =>
    have htarget : s.io.readTask.target = some (d.source, q) := by
      rw [hread]
      rfl
    have hlt := (hw.acceptor.wellFormed.target d.source q htarget).1
    cases hreceiver : (s.io.queues q).receiver with
    | false => exact absurd ⟨hread, hreceiver⟩ (idle (.sendClosed d q b) rfl rfl trivial)
    | true =>
      have hnil : (s.io.queues q).datagrams.items = [] := by
        cases b with
        | true => exact hk.handing.first d q hread
        | false => exact rest.unused hw flows calm hk hlt hreceiver (by rw [hread]; rfl)
      refine absurd ⟨hread, hreceiver, ?_⟩ (idle (.send d q b) rfl rfl trivial)
      simp [BoundedQueue.full, hnil]
  | inserting remote q b => exact absurd hread (idle (.insert remote q b) rfl rfl trivial)
  | offering q =>
    cases hacceptor : s.io.acceptor with
    | true =>
      refine absurd ⟨hread, hacceptor, ?_⟩ (idle (.offer q) rfl rfl trivial)
      simp [BoundedQueue.full, (rest.incoming hw hk.handing calm).2]
    | false => exact absurd ⟨hread, hacceptor⟩ (idle (.offerClosed q) rfl rfl trivial)
  | ended => exact .inr rfl

theorem drained : s.Drained where
  connection q c hc :=
    ⟨(rest.connection hc).settled, rest.delivery flows hc, rest.stream hw hc⟩
  reads := rest.reads hw flows calm hk
  accepts := by
    obtain ⟨htask | htask, hincoming⟩ := rest.incoming hw hk.handing calm
    · refine .inl ⟨htask, ?_⟩
      rcases rest.reads hw flows calm hk with ⟨hread, -⟩ | hended
      · exact hread
      · have hopen : s.io.acceptor = true := hw.acceptor.acceptor.mpr (by simp [htask])
        exact absurd ⟨rfl, htask, hended, hincoming, hopen⟩ (rest (.accept .ended) rfl)
    · exact .inr htask
  incoming := (rest.incoming hw hk.handing calm).2
  queues q hq hreceiver := by
    refine rest.unused hw flows calm hk hq hreceiver ?_
    rcases rest.reads hw flows calm hk with ⟨hread, -⟩ | hended
    · rw [hread]
      rfl
    · rw [hended]
      rfl

end AtRest

theorem Drained.atRest (drained : s.Drained) : s.AtRest := by
  have hconnection : ∀ {q : ℕ} {p : Connection tls → Prop}, (s.endpoints q).satisfies p →
      ∃ c, p c ∧ c.Settled ∧ c.delivery = none ∧ (c.readTask = .ended → c.stream = false) := by
    intro q p hq
    obtain ⟨c, hc, hp⟩ := Endpoint.satisfies_iff.mp hq
    exact ⟨c, hp, drained.connection q c hc⟩
  rintro e prompt ⟨hadmits, hon⟩
  cases e with
  | reader e =>
    have he : s.io.enabled e := hon.2
    rcases drained.reads with ⟨hread, hopen⟩ | hread
    · cases e with
      | send | sendClosed | offer | offerClosed => cases he.1.symm.trans hread
      | insert => cases hread.symm.trans he
      | closed => cases he.2.symm.trans hopen
      | _ => cases prompt
    · cases e with
      | send | sendClosed | offer | offerClosed | closed => cases he.1.symm.trans hread
      | insert => cases hread.symm.trans he
      | _ => cases prompt
  | accept a =>
    cases a with
    | take q =>
      have hhead := hon.2.2
      rw [show s.acceptor.io.incoming.items = [] from drained.incoming] at hhead
      cases hhead
    | ended =>
      rcases drained.accepts with ⟨-, hread⟩ | htask
      · cases hread.symm.trans hon.2.1
      · cases hon.1.symm.trans htask
    | _ => cases prompt
  | register q =>
    rcases drained.accepts with ⟨htask, -⟩ | htask
    · cases htask.symm.trans hon
    · cases htask.symm.trans hon
  | receive q d frames =>
    have hnil := drained.queues q hon.2.1 hon.2.2.1
    have hhead := hon.2.2.2.2
    rw [show (s.acceptor.io.queues q).datagrams.items = [] from hnil] at hhead
    cases hhead
  | connection q e =>
    obtain ⟨c, he, hsettled, -⟩ := hconnection hadmits
    exact hsettled.atRest e prompt he
  | deliver q =>
    obtain ⟨c, hsome, -, hnone, -⟩ := hconnection hadmits.2.2
    simp [hnone] at hsome
  | deliverClosed q =>
    obtain ⟨c, hsome, -, hnone, -⟩ := hconnection hadmits.2
    simp [hnone] at hsome
  | release q =>
    obtain ⟨c, ⟨hstream, hended, -⟩, -, -, hclosed⟩ := hconnection hadmits
    exact absurd (hstream.symm.trans (hclosed hended)) (by simp)
  | _ => cases prompt

/-- Where no handshake is under way and the data channel is not full, the tasks of a transport
socket can go on until its channels are empty. -/
theorem atRest_iff (hw : s.Owners) (hk : s.Kept) (calm : s.Calm)
    (flows : s.receiver = true → s.deliverFrame.full = false) : s.AtRest ↔ s.Drained :=
  ⟨fun rest => rest.drained hw flows calm hk, Drained.atRest⟩

end Socket

end Transport

end Uip
