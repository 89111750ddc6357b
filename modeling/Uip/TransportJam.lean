import Uip.TransportSocketInvariant

/-! The read tasks of the connections and the UDP read task of one transport socket, waiting for
room: a connection that finds the data channel full reads no more datagrams, and the UDP read
task gets stuck on that connection's queue. -/
namespace Uip
open TransitionSystem Transport

variable {tls : Tls}

def Io.ReadTask.sendsTo : Io.ReadTask → Option ℕ
  | .sending _ q _ => some q
  | _ => none

namespace Io.Socket

variable {s : Socket} {e : Event} {q : ℕ}

theorem sendsTo_lt (hw : s.WellFormed) (hq : s.readTask.sendsTo = some q) : q < s.nextQueue := by
  cases hr : s.readTask with
  | sending d p b =>
    obtain rfl : p = q := by simpa [hr, ReadTask.sendsTo] using hq
    exact (hw.target d.source p (by rw [hr]; rfl)).1
  | _ => simp [hr, ReadTask.sendsTo] at hq

theorem sendsTo_full_of_next (hw : s.WellFormed) (he : s.enabled e)
    (hq : (s.next e).readTask.sendsTo = some q)
    (hfull : ((s.next e).queues q).datagrams.full = true) :
    (s.readTask.sendsTo = some q ∧ (s.queues q).datagrams.full = true) ∨
      ∃ bytes remote, e = .datagram bytes remote ∧ s.connections.lookup remote = some q ∧
        (s.queues q).datagrams.full = true := by
  have other : (s.next e).readTask = s.readTask → (∀ d b, e ≠ .send d q b) →
      s.readTask.sendsTo = some q ∧ (s.queues q).datagrams.full = true := by
    intro hread hsend
    rw [hread] at hq
    refine ⟨hq, ?_⟩
    rcases s.next_queue e (sendsTo_lt hw hq) with hs | ⟨d, b, rfl, _⟩ | ⟨d, _, hs⟩ | ⟨_, hs⟩
    · rwa [hs] at hfull
    · exact absurd rfl (hsend d b)
    · rw [hs, BoundedQueue.full_iff, pop_items, List.length_tail] at hfull
      have := (s.queues q).datagrams.bounded
      omega
    · rw [hs] at hfull
      cases hfull
  cases e with
  | datagram bytes remote =>
    right
    obtain ⟨p, b, hread, hp⟩ := s.lookup_readTask bytes remote
    obtain rfl : p = q := by
      rw [show (s.next (.datagram bytes remote)).readTask = _ from hread] at hq
      exact Option.some.inj hq
    rcases hp with ⟨hl, _⟩ | ⟨hl, rfl, _⟩
    · refine ⟨bytes, remote, rfl, hl, ?_⟩
      simpa [next, lookup, hl] using hfull
    · rw [(datagram_fresh bytes hl).2] at hfull
      cases hfull
  | insert remote p b => cases b <;> cases hq
  | send | sendClosed | offer | offerClosed | recvError | closed => cases hq
  | close | connect | take | read | drop | dropAcceptor => exact .inl (other rfl (by simp))

end Io.Socket

namespace Transport.Socket

variable {s : Socket tls} {e : SocketEvent tls} {q : ℕ}

/-- The read task of the connection has a tuple for the data channel. -/
def HoldsData (s : Socket tls) (q : ℕ) : Prop :=
  (s.endpoints q).satisfies fun c => c.delivery.isSome = true

/-- The UDP read task is blocked on the full queue of the connection. -/
def ReaderWaits (s : Socket tls) (q : ℕ) : Prop :=
  s.io.readTask.sendsTo = some q ∧ (s.io.queues q).datagrams.full = true

/-- The read task of some connection is blocked because the data channel is full, and the UDP
read task because the queue of that connection is full. -/
def Jammed (s : Socket tls) : Prop :=
  s.deliverFrame.full = true ∧ ∃ q, s.HoldsData q ∧ s.ReaderWaits q

/-- The step does not complete a jam: the UDP read task takes no datagram for a connection that
is blocked with a full queue; no read task finds the data channel full, or fills it up for a
connection that waits too, while the UDP read task is blocked on that connection. -/
def avoidsJam (s : Socket tls) : SocketEvent tls → Prop
  | .reader (.datagram _ remote) => ∀ q, s.io.connections.lookup remote = some q →
      (s.io.queues q).datagrams.full = true → s.deliverFrame.full = true → ¬ s.HoldsData q
  | .connection q (.frame (.data ..)) => s.deliverFrame.full = true → ¬ s.ReaderWaits q
  | .deliver p => s.deliverFrame.items.length = 9 → ∀ q, q ≠ p → s.HoldsData q →
      ¬ s.ReaderWaits q
  | _ => True

theorem readerWaits_of_next (h : s.Owners) (he : s.enabled e) (hq : (s.next e).ReaderWaits q) :
    s.ReaderWaits q ∨ ∃ bytes remote, e = .reader (.datagram bytes remote) ∧
      s.io.connections.lookup remote = some q ∧ (s.io.queues q).datagrams.full = true := by
  obtain ⟨hread, hfull⟩ := hq
  rw [next_io] at hread hfull
  cases hi : e.onAcceptor.bind AcceptEvent.onIo with
  | none =>
    rw [hi] at hread hfull
    exact .inl ⟨hread, hfull⟩
  | some i =>
    rw [hi] at hread hfull
    rcases Io.Socket.sendsTo_full_of_next h.acceptor.wellFormed (enabled_io he hi) hread hfull with
      hold | ⟨bytes, remote, rfl, hl, hq⟩
    · exact .inl hold
    · exact .inr ⟨bytes, remote, reader_of_onIo he hi rfl, hl, hq⟩

theorem holdsData_update {p : ℕ} {endpoint : Endpoint tls} :
    (s.updateEndpoint p endpoint).HoldsData q ↔
      if q = p then endpoint.satisfies fun c => c.delivery.isSome = true else s.HoldsData q := by
  unfold HoldsData updateEndpoint
  by_cases hq : q = p
  · simp [hq]
  · simp [hq]

theorem not_holdsData_deliver (he : s.enabled (.deliver q)) :
    ¬ (s.next (.deliver q)).HoldsData q := by
  intro hq
  obtain ⟨c, hc, hsome⟩ := Endpoint.satisfies_iff.mp he.1.2.2
  obtain ⟨d, hd⟩ := Option.isSome_iff_exists.mp hsome
  have hq' : (s.effect (.deliver q)).HoldsData q := hq
  simp only [effect, Socket.deliver, hc, hd] at hq'
  have hupdate : (s.updateConnection q fun c => { c with readTask := .reading }).HoldsData q := hq'
  rw [updateConnection, holdsData_update, if_pos rfl, hc] at hupdate
  cases hupdate

theorem holdsData_of_next (he : s.enabled e) (hq : (s.next e).HoldsData q) :
    (s.HoldsData q ∧ e ≠ .deliver q) ∨ handsData e q := by
  by_cases hdeliver : e = .deliver q
  · subst hdeliver
    exact absurd hq (not_holdsData_deliver he)
  · have hstep := next_endpoint he q
    unfold HoldsData at hq ⊢
    generalize (s.next e).endpoints q = endpoint at hstep hq
    cases hstep with
    | same => exact .inl ⟨hq, hdeliver⟩
    | accepted | opening | failed | opened => cases hq
    | continues c d old keeps delivery =>
      rcases delivery hq with hold | hdata
      · exact .inl ⟨Endpoint.satisfies_iff.mpr ⟨c, old, hold⟩, hdeliver⟩
      · exact .inr hdata

theorem deliverFrame_full_of_next (he : s.enabled e) (hq : (s.next e).deliverFrame.full = true) :
    s.deliverFrame.full = true ∨ ∃ p, e = .deliver p ∧ s.deliverFrame.items.length = 9 := by
  have hlen := BoundedQueue.full_iff.mp hq
  have hle := s.deliverFrame.bounded
  rcases next_channel he with ⟨_, hsub⟩ | ⟨p, _, d, rfl, _, _, _, hitems⟩
  · have := hsub.length_le
    exact .inl (BoundedQueue.full_iff.mpr (by omega))
  · rw [hitems, List.length_append, List.length_singleton] at hlen
    exact .inr ⟨p, rfl, by omega⟩

theorem jammed_of_next (h : s.Owners) (he : s.enabled e) (ht : (s.next e).Jammed)
    (hg : s.avoidsJam e) : s.Jammed := by
  obtain ⟨hfull, q, hdata, hwaits⟩ := ht
  rcases deliverFrame_full_of_next he hfull with hfull | ⟨p, rfl, hlen⟩
  · rcases holdsData_of_next he hdata with ⟨hdata, _⟩ | ⟨srcPort, dstPort, data, rfl⟩
    · rcases readerWaits_of_next h he hwaits with hwaits | ⟨bytes, remote, rfl, hl, hq⟩
      · exact ⟨hfull, q, hdata, hwaits⟩
      · exact absurd hdata (hg q hl hq hfull)
    · rcases readerWaits_of_next h he hwaits with hwaits | ⟨_, _, heq, _⟩
      · exact absurd hwaits (hg hfull)
      · cases heq
  · rcases holdsData_of_next he hdata with ⟨hdata, hne⟩ | ⟨_, _, _, heq⟩
    · rcases readerWaits_of_next h he hwaits with hwaits | ⟨_, _, heq, _⟩
      · exact absurd hwaits (hg hlen q (fun hqp => hne (by rw [hqp])) hdata)
      · cases heq
    · cases heq

theorem jammed_next (he : s.enabled e) (hg : ¬ s.avoidsJam e) : (s.next e).Jammed := by
  cases e with
  | reader i =>
    cases i with
    | datagram bytes remote =>
      simp only [avoidsJam, not_forall, not_not] at hg
      obtain ⟨q, hl, hq, hfull, hdata⟩ := hg
      have hio : (s.next (.reader (.datagram bytes remote))).io =
          s.io.next (.datagram bytes remote) := rfl
      refine ⟨hfull, q, hdata, ?_, ?_⟩
      · simp [hio, Io.Socket.next, Io.Socket.lookup, hl, Io.ReadTask.sendsTo]
      · simpa [hio, Io.Socket.next, Io.Socket.lookup, hl] using hq
    | _ => exact absurd trivial hg
  | connection p ce =>
    cases ce with
    | frame f =>
      cases f with
      | data srcPort dstPort data =>
        simp only [avoidsJam, not_forall, not_not] at hg
        obtain ⟨hfull, hwaits⟩ := hg
        obtain ⟨c, hc, _⟩ := Endpoint.satisfies_iff.mp he.1
        refine ⟨hfull, p, ?_, hwaits⟩
        show (s.updateConnection p fun c => c.next _).HoldsData p
        rw [updateConnection, holdsData_update, if_pos rfl, hc]
        rfl
      | ping | pong => exact absurd trivial hg
    | _ => exact absurd trivial hg
  | deliver p =>
    simp only [avoidsJam, not_forall, not_not] at hg
    obtain ⟨hlen, q, hne, hdata, hwaits⟩ := hg
    obtain ⟨c, d, hc, hd, _, hitems⟩ := next_deliver he
    refine ⟨?_, q, ?_, hwaits⟩
    · rw [BoundedQueue.full_iff, hitems, List.length_append, hlen]
      rfl
    · show (s.effect (.deliver p)).HoldsData q
      simp only [effect, Socket.deliver, hc, hd]
      show (s.updateConnection p _).HoldsData q
      rw [updateConnection, holdsData_update, if_neg hne]
      exact hdata
  | _ => exact absurd trivial hg

theorem Jammed.openConnection (hj : s.Jammed) (h : s.Owners) (id : Identifier)
    (address : SocketAddrV6) : (s.next (.openConnection id address)).Jammed := by
  obtain ⟨hfull, q, hdata, hread, hqueue⟩ := hj
  have hne : q ≠ s.io.nextQueue :=
    Nat.ne_of_lt (Io.Socket.sendsTo_lt h.acceptor.wellFormed hread)
  refine ⟨hfull, q, ?_, ?_, ?_⟩
  · have hupdate : (s.updateEndpoint s.io.nextQueue (.opening id address)).HoldsData q := by
      rw [holdsData_update, if_neg hne]
      exact hdata
    exact hupdate
  · rw [openConnection_io]
    exact hread
  · have hsame : (s.io.next (.connect (.v6 address))).queues q = s.io.queues q :=
      Function.update_of_ne hne _ _
    rw [openConnection_io, hsame]
    exact hqueue

theorem not_jammed_new : ¬ (new tls).Jammed := by
  intro h
  cases h.1

end Transport.Socket

/-- A socket is never jammed in a run if and only if no step of the run completes a jam. -/
theorem jammed_iff (r : Run (socketMachine tls)) :
    (∀ x ∈ r.transitions, ¬ x.target.Jammed) ↔
      ∀ x ∈ r.transitions, x.source.avoidsJam x.label := by
  apply r.guarded_iff (I := Socket.Owners) (P := fun s => ¬ s.Jammed)
  · exact fun s hs => hs ▸ ⟨.new, Socket.not_jammed_new⟩
  · exact fun s e hs he => hs.next he
  · intro s e hs hjam he
    constructor
    · intro ht
      by_contra hg
      exact ht (Socket.jammed_next he hg)
    · intro hg ht
      exact hjam (Socket.jammed_of_next hs he ht hg)

end Uip
