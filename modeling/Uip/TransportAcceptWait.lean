import Uip.TransportAccept

/-! Whether the UDP read task and the accept task can wait for each other. The read task awaits
room in the queue of a connection that is not taken up yet, or in the new-connection channel,
and the accept task makes room only when the handshake it awaits has got its datagrams. -/
namespace Uip.Io.Socket

variable {s : Socket} {e : Event}

/-- The read task waits for room that only the accept task can make. -/
def ReaderBlocked (s : Socket) : Prop :=
  (∃ d q b, s.readTask = .sending d q b ∧ q ∈ s.incoming.items ∧
    (s.queues q).datagrams.full = true) ∨
  ∃ q, s.readTask = .offering q ∧ s.incoming.full = true

/-- The read task takes no datagram for a connection that has ten of them and is not taken up
yet, and makes no new connection while ten are not taken up. -/
def readerHasRoom (s : Socket) : Event → Prop
  | .datagram _ remote => ∀ q ∈ s.incoming.items,
      s.connections.lookup remote = some q → (s.queues q).datagrams.full = false
  | .insert _ _ true => s.incoming.full = false
  | _ => True

theorem readerBlocked_of_other (hh : s.Handover) (he : s.enabled e)
    (hsub : (s.next e).incoming.items.Sublist s.incoming.items)
    (hread : (s.next e).readTask = s.readTask) (hsend : ∀ d q b, e ≠ .send d q b)
    (h : (s.next e).ReaderBlocked) : s.ReaderBlocked := by
  rw [ReaderBlocked, hread] at h
  rcases h with ⟨d, q, b, hr, hm, hfull⟩ | ⟨q, hr, hfull⟩
  · have hq := hsub.subset hm
    have hheld : s.held q := .inr hq
    rcases s.next_queue e (hh.lt hheld) with hs | ⟨d', b', rfl, _⟩ | ⟨d', rfl, _⟩ | ⟨_, hc⟩
    · exact .inl ⟨d, q, b, hr, hq, hs ▸ hfull⟩
    · exact absurd rfl (hsend d' q b')
    · exact absurd hheld he.2.2.1
    · rw [hc] at hfull
      cases hfull
  · have hlen := BoundedQueue.full_iff.mp hfull
    have hle := hsub.length_le
    have hbound := s.incoming.bounded
    exact .inr ⟨q, hr, BoundedQueue.full_iff.mpr (by omega)⟩

/-- The read task gets stuck by what it takes, and only there. -/
theorem readerBlocked_of_next (hh : s.Handover) (he : s.enabled e)
    (h : (s.next e).ReaderBlocked) : s.ReaderBlocked ∨ ¬ s.readerHasRoom e := by
  have hinc := next_incoming he
  cases e with
  | datagram bytes remote =>
    right
    intro hroom
    rcases h with ⟨d, q, b, hr, hm, hfull⟩ | ⟨q, hr, _⟩
    · rw [hinc] at hm
      have hlt := hh.incoming q hm
      have htarget : (s.next (.datagram bytes remote)).readTask.target = some (d.source, q) := by
        rw [hr]
        rfl
      rcases next_target he htarget with ⟨ht, _⟩ | ⟨bytes', heq, hl | ⟨_, rfl⟩⟩
      · rw [show s.readTask = .receiving from he] at ht
        cases ht
      · obtain ⟨rfl, rfl⟩ := Event.datagram.inj heq
        have hsame : (s.next (.datagram bytes d.source)).queues q = s.queues q := by
          simp [next, lookup, hl]
        have hnot := hroom q hm hl
        rw [hsame, hnot] at hfull
        cases hfull
      · exact Nat.lt_irrefl _ hlt
    · obtain ⟨p, b, hread, _⟩ := s.lookup_readTask bytes remote
      cases hread.symm.trans hr
  | insert remote p b =>
    cases b with
    | false => simp [ReaderBlocked, next] at h
    | true =>
      right
      intro hroom
      rcases h with ⟨d, q, b, hr, _⟩ | ⟨q, _, hfull⟩
      · cases hr
      · exact absurd hfull (by simp [next, show s.incoming.full = false from hroom])
  | send | sendClosed | offer | offerClosed | recvError | closed => simp [ReaderBlocked, next] at h
  | take q =>
    exact .inl (readerBlocked_of_other hh he (by rw [hinc]; exact List.tail_sublist _) rfl
      (by simp) h)
  | dropAcceptor =>
    exact .inl (readerBlocked_of_other hh he (by rw [hinc]; exact List.nil_sublist _) rfl
      (by simp) h)
  | close | connect | read | drop =>
    exact .inl (readerBlocked_of_other hh he (by rw [hinc]) rfl (by simp) h)

theorem readerBlocked_next (he : s.enabled e) (h : ¬ s.readerHasRoom e) :
    (s.next e).ReaderBlocked := by
  have hinc := next_incoming he
  cases e with
  | datagram bytes remote =>
    simp only [readerHasRoom, not_forall, Bool.not_eq_false] at h
    obtain ⟨q, hm, hl, hfull⟩ := h
    have hread : (s.next (.datagram bytes remote)).readTask =
        .sending ⟨s.received.length, remote, bytes⟩ q false := by
      simp [next, lookup, hl]
    refine .inl ⟨_, q, false, hread, by rw [hinc]; exact hm, ?_⟩
    simpa [next, lookup, hl] using hfull
  | insert remote q b =>
    cases b with
    | false => exact absurd trivial h
    | true => exact .inr ⟨q, rfl, eq_true_of_ne_false h⟩
  | _ => exact absurd trivial h

end Uip.Io.Socket

namespace Uip.Transport
open TransitionSystem

namespace Acceptor

variable {s : Acceptor} {e : AcceptEvent}

/-- The accept task waits for a datagram that only the read task can deliver. -/
def Awaits (s : Acceptor) (q : ℕ) : Prop :=
  s.task = .awaiting q ∧ (s.io.queues q).datagrams.items = [] ∧ senderAlive s.io q

def CircularWait (s : Acceptor) : Prop := (∃ q, s.Awaits q) ∧ s.io.ReaderBlocked

/-- Neither task begins to wait while the other one does: while a handshake waits, the read task
has room for what it takes, and a handshake does not begin to wait for an empty queue while
the read task is blocked. -/
def avoidsWait (s : Acceptor) : AcceptEvent → Prop
  | .io i => (∃ q, s.Awaits q) → s.io.readerHasRoom i
  | .await q => (s.io.queues q).datagrams.items = [] → senderAlive s.io q → ¬ s.io.ReaderBlocked
  | _ => True

theorem senderAlive_of_next (hw : s.io.WellFormed) {i : Io.Event} (hi : s.io.enabled i) {q : ℕ}
    (hq : q < s.io.nextQueue) (h : senderAlive (s.io.next i) q) : senderAlive s.io q := by
  rw [senderAlive, s.io.next_remote i hq] at h
  rcases h with h | h
  · rcases Io.Socket.lookup_of_next h with ⟨hold, _⟩ | ⟨b, rfl⟩ | ⟨_, rfl⟩
    · exact .inl hold
    · right
      rw [show s.io.readTask = _ from hi]
      rfl
    · omega
  · obtain ⟨⟨addr, p⟩, ht, rfl⟩ := Option.map_eq_some_iff.mp h
    rcases Io.Socket.next_target hi ht with ⟨hold, _⟩ | ⟨bytes, rfl, hl | ⟨_, rfl⟩⟩
    · exact .inr (by rw [hold]; rfl)
    · exact .inl (by rw [(hw.entry addr p hl).2]; exact hl)
    · exact absurd hq (Nat.lt_irrefl _)

/-- The accept task begins to wait by its own step only. -/
theorem awaits_of_next (h : s.Owner) (he : s.enabled e) {q : ℕ} (ht : (s.next e).Awaits q) :
    s.Awaits q ∨ (e = .await q ∧ (s.io.queues q).datagrams.items = [] ∧ senderAlive s.io q) := by
  obtain ⟨htask, hitems, hsender⟩ := ht
  cases e with
  | io i =>
    have howns : s.task.owns = some q := by
      rw [show s.task = _ from htask]
      rfl
    have howned := h.owned q howns
    refine .inl ⟨htask, ?_, senderAlive_of_next h.wellFormed he.2 howned.lt hsender⟩
    rcases s.io.next_queue i howned.lt with hs | ⟨d, b, rfl, hs⟩ | ⟨d, rfl, _⟩ | ⟨hd, _⟩
    · rw [← hs]
      exact hitems
    · rw [show (s.next (.io (.send d q b))).io = s.io.next (.send d q b) from rfl, hs,
        Io.put_items _ _ he.2.2.2] at hitems
      simp at hitems
    · exact absurd howns he.1
    · rcases hd with rfl | rfl | ⟨rfl, _⟩
      · exact absurd howns he.1
      · exact absurd (.inl (by rw [he.2.1]; rfl)) howned.handed
      · exact he.1.elim
  | await p =>
    obtain rfl := AcceptTask.awaiting.inj htask
    exact .inr ⟨rfl, hitems, hsender⟩
  | take | read | eof | abandon | finish | register | ended => cases htask

theorem lookup_of_senderAlive {io : Io.Socket} {q : ℕ} (h : senderAlive io q)
    (ht : ∀ addr, io.readTask.target ≠ some (addr, q)) :
    io.connections.lookup (io.queues q).remote = some q := by
  rcases h with hl | hr
  · exact hl
  · obtain ⟨⟨addr, p⟩, htarget, rfl⟩ := Option.map_eq_some_iff.mp hr
    exact absurd htarget (ht addr)

/-- A handshake that waits still waits after the step that gets the read task stuck. -/
theorem awaits_next (h : s.Owner) {i : Io.Event} (he : s.io.enabled i)
    (hroom : ¬ s.io.readerHasRoom i) {q : ℕ} (hq : s.Awaits q) : (s.next (.io i)).Awaits q := by
  obtain ⟨htask, hitems, hsender⟩ := hq
  have howns : s.task.owns = some q := by
    rw [htask]
    rfl
  have howned := h.owned q howns
  cases i with
  | datagram bytes remote =>
    have hlook := lookup_of_senderAlive hsender fun addr ht => by
      rw [show s.io.readTask = .receiving from he] at ht
      cases ht
    have hsame : (s.io.next (.datagram bytes remote)).queues q = s.io.queues q := by
      rcases s.io.next_queue (.datagram bytes remote) howned.lt with
        hs | ⟨_, _, heq, _⟩ | ⟨_, heq, _⟩ | ⟨heq | heq | ⟨heq, _⟩, _⟩
      · exact hs
      all_goals cases heq
    refine ⟨htask, by rw [← hitems, ← hsame]; rfl, .inl ?_⟩
    show (s.io.next (.datagram bytes remote)).connections.lookup
      ((s.io.next (.datagram bytes remote)).queues q).remote = some q
    rw [hsame, Io.Socket.next_lookup]
    exact hlook
  | insert remote p b =>
    have hne : p ≠ q := by
      rintro rfl
      cases b with
      | false => exact hroom trivial
      | true => exact howned.handed (.inl (by rw [show s.io.readTask = _ from he]; rfl))
    have hlook := lookup_of_senderAlive hsender fun addr ht => by
      rw [show s.io.readTask = _ from he] at ht
      exact hne (Prod.mk.inj (Option.some.inj ht)).2
    -- An entry that overtook the read task is of `connect`, and this connection is not.
    have haddr : (s.io.queues q).remote ≠ remote := by
      intro ha
      rw [ha] at hlook
      rcases h.wellFormed.overtaken remote p q (by rw [show s.io.readTask = _ from he]; rfl) hlook
        with heq | hnewest
      · exact hne heq.symm
      · have := h.origin q howns
        rw [hnewest.2.2.1] at this
        cases this
    refine ⟨htask, hitems, .inl ?_⟩
    apply Io.Socket.lookup_next hlook _ (by simp)
    intro p' b' heq
    exact absurd (Io.Event.insert.inj heq).1.symm haddr
  | _ => exact absurd trivial hroom

theorem io_of_not_readerHasRoom {i : Io.Event} (hi : e.onIo = some i)
    (hroom : ¬ s.io.readerHasRoom i) : e = .io i := by
  cases e with
  | io j => rw [Option.some.inj hi]
  | take | read | abandon | ended =>
    obtain rfl := Option.some.inj hi
    exact absurd trivial hroom
  | await | eof | finish | register => cases hi

theorem circularWait_of_next (h : s.Owner) (he : s.enabled e) (hg : s.avoidsWait e)
    (ht : (s.next e).CircularWait) : s.CircularWait := by
  obtain ⟨⟨q, hq⟩, hblocked⟩ := ht
  rcases awaits_of_next h he hq with hold | ⟨rfl, hitems, hsender⟩
  · refine ⟨⟨q, hold⟩, ?_⟩
    rw [next_io] at hblocked
    cases hi : e.onIo with
    | none => simpa [hi] using hblocked
    | some i =>
      rw [hi] at hblocked
      rcases Io.Socket.readerBlocked_of_next h.handover (enabled_io he hi) hblocked with hb | hroom
      · exact hb
      · obtain rfl := io_of_not_readerHasRoom hi hroom
        exact absurd (hg ⟨q, hold⟩) hroom
  · exact absurd hblocked (hg hitems hsender)

theorem avoidsWait_of_next (h : s.Owner) (he : s.enabled e) (ht : ¬ (s.next e).CircularWait) :
    s.avoidsWait e := by
  cases e with
  | io i =>
    rintro ⟨q, hq⟩
    by_contra hroom
    exact ht ⟨⟨q, awaits_next h he.2 hroom hq⟩, Io.Socket.readerBlocked_next he.2 hroom⟩
  | await q => exact fun hitems hsender hblocked => ht ⟨⟨q, rfl, hitems, hsender⟩, hblocked⟩
  | _ => trivial

theorem not_circularWait_new : ¬ new.CircularWait := by
  rintro ⟨⟨q, hq, _⟩, _⟩
  cases hq

end Acceptor

/-- A run is free of circular waits if and only if in none of its steps one task begins to wait
while the other one does. -/
theorem circularWait_iff (r : Run acceptMachine) :
    (∀ x ∈ r.transitions, ¬ x.target.CircularWait) ↔
      ∀ x ∈ r.transitions, x.source.avoidsWait x.label := by
  apply r.guarded_iff (I := Acceptor.Owner) (P := fun s => ¬ s.CircularWait)
  · exact fun s hs => hs ▸ ⟨.new, Acceptor.not_circularWait_new⟩
  · exact fun s e hs he => hs.next he
  · intro s e hs hwait he
    constructor
    · exact Acceptor.avoidsWait_of_next hs he
    · intro hg ht
      exact hwait (Acceptor.circularWait_of_next hs he hg ht)

/-- While no remote overfills a connection that is not taken up, and no new connection comes
when ten are not taken up, the read task is never stuck. -/
theorem reader_never_blocked (r : Run acceptMachine)
    (hroom : ∀ x ∈ r.transitions, ∀ i, x.label = .io i → x.source.io.readerHasRoom i) :
    ∀ x ∈ r.transitions, ¬ x.target.io.ReaderBlocked := by
  have hstart : r.start.Owner ∧ ¬ r.start.io.ReaderBlocked := by
    rw [show r.start = Acceptor.new from r.starts]
    refine ⟨.new, ?_⟩
    rintro (⟨d, q, b, hr, _⟩ | ⟨q, hr, _⟩) <;> cases hr
  have hinv := r.path.guarded_invariant (P := fun s => s.Owner ∧ ¬ s.io.ReaderBlocked)
    (G := fun s e => ∀ i, e = .io i → s.io.readerHasRoom i) (fun s e hs hg he => ?_) hstart hroom
  · exact fun x hx => (hinv.2 x hx).2.2
  · refine ⟨hs.1.next he, fun hb => ?_⟩
    rw [Acceptor.next_io] at hb
    cases hi : e.onIo with
    | none => exact hs.2 (by simpa [hi] using hb)
    | some i =>
      rw [hi] at hb
      rcases Io.Socket.readerBlocked_of_next hs.1.handover (Acceptor.enabled_io he hi) hb with
        hold | hnot
      · exact hs.2 hold
      · exact hnot (hg i (Acceptor.io_of_not_readerHasRoom hi hnot))

section Overfilled

def slowAddr : SocketAddr := .v6 ⟨3, 65041, 0, 0⟩

def burstAddr : SocketAddr := .v6 ⟨4, 65041, 0, 0⟩

/-- The accept task awaits a handshake with one remote while another remote sends eleven
datagrams: ten fill its queue and the read task is stuck with the last. -/
def overfillingEvents : List AcceptEvent :=
  [.io (.datagram [22] slowAddr), .io (.send ⟨0, slowAddr, [22]⟩ 0 true),
    .io (.insert slowAddr 0 true), .io (.offer 0), .take 0, .await 0, .read 0 ⟨0, slowAddr, [22]⟩,
    .await 0, .io (.datagram [] burstAddr), .io (.send ⟨1, burstAddr, []⟩ 1 true),
    .io (.insert burstAddr 1 true), .io (.offer 1)] ++
  ((List.range 9).flatMap fun n => [.io (.datagram [] burstAddr),
    .io (.send ⟨n + 2, burstAddr, []⟩ 1 false), .io (.insert burstAddr 1 false)]) ++
  [.io (.datagram [] burstAddr)]

theorem burst_blocks_handshake : ∃ s, Reachable acceptMachine s ∧ s.CircularWait := by
  obtain ⟨s, hs, hp⟩ := exec_reachable (M := acceptMachine) rfl overfillingEvents
    (p := fun s => decide (s.task = .awaiting 0 ∧ (s.io.queues 0).datagrams.items = [] ∧
      senderAlive s.io 0 ∧ s.io.readTask = .sending ⟨11, burstAddr, []⟩ 1 false ∧
      1 ∈ s.io.incoming.items ∧ (s.io.queues 1).datagrams.full = true)) (by decide +kernel)
  obtain ⟨htask, hitems, hsender, hread, hm, hfull⟩ := of_decide_eq_true hp
  exact ⟨s, hs, ⟨0, htask, hitems, hsender⟩, .inl ⟨_, 1, false, hread, hm, hfull⟩⟩

end Overfilled

end Uip.Transport
