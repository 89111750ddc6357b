import Uip.IoSocketInvariant

/-! Whether a remote whose connection is gone can come back. An entry of the map outlives the
connection it leads to, and a closed queue swallows every further datagram of its address; a run
is free of this exactly if no connection is dropped while the map leads to it. -/
namespace Uip.Io
open TransitionSystem

namespace Socket

variable {s : Socket} {e : Event}

/-- The function without interruption: the connection it returns and the state it leaves, or
`none` if it has to wait for room in the queue. -/
def forwardOrNewConnection (s : Socket) (buf : Bytes) (remote : SocketAddr) :
    Option (Option ℕ × Socket) :=
  match (s.lookup buf remote).readTask with
  | .sending d q b =>
    let s := s.lookup buf remote
    if (s.queues q).receiver = false then some (none, s.next (.sendClosed d q b))
    else if (s.queues q).datagrams.full = true then none
    else some (if b then some q else none, (s.next (.send d q b)).next (.insert remote q b))
  | _ => none

/-- The uninterrupted function is a run of the read task up to its return. -/
theorem forwardOrNewConnection_exec {buf : Bytes} {remote : SocketAddr} {t : Socket}
    {connection : Option ℕ} (hs : s.readTask = .receiving)
    (h : s.forwardOrNewConnection buf remote = some (connection, t)) :
    ∃ events, exec machine s (.datagram buf remote :: events) = some t := by
  have hlook : machine.step s (.datagram buf remote) = some (s.lookup buf remote) :=
    guarded_step.mpr ⟨hs, rfl⟩
  obtain ⟨q, b, hread, _⟩ := s.lookup_readTask buf remote
  unfold forwardOrNewConnection at h
  generalize s.lookup buf remote = u at hlook hread h
  simp only [hread] at h
  by_cases hrec : (u.queues q).receiver = false
  · rw [if_pos hrec, Option.some.injEq] at h
    have hclosed : machine.step u (.sendClosed _ q b) = some _ :=
      guarded_step.mpr ⟨⟨hread, hrec⟩, rfl⟩
    refine ⟨_, (exec_step hlook _).trans ((exec_step hclosed []).trans ?_)⟩
    exact congrArg (some ∘ Prod.snd) h
  · by_cases hfull : (u.queues q).datagrams.full = true
    · simp [hrec, hfull] at h
    · rw [if_neg hrec, if_neg hfull, Option.some.injEq] at h
      have hsend : machine.step u (.send ⟨s.received.length, remote, buf⟩ q b) = some _ :=
        guarded_step.mpr ⟨⟨hread, by simpa using hrec, by simpa using hfull⟩, rfl⟩
      have hinsert : machine.step (u.next (.send ⟨s.received.length, remote, buf⟩ q b))
          (.insert remote q b) = some _ :=
        guarded_step.mpr ⟨rfl, rfl⟩
      refine ⟨_, (exec_step hlook _).trans ((exec_step hsend _).trans
        ((exec_step hinsert []).trans ?_))⟩
      exact congrArg (some ∘ Prod.snd) h

/-- No live connection for the address exists. -/
def Unconnected (s : Socket) (addr : SocketAddr) : Prop :=
  ∀ q < s.nextQueue, (s.queues q).remote = addr → (s.queues q).receiver = false

/-- The read task is forwarding `d` with the connection `q` it made for it, or has just done so:
then the connection holds that datagram and nothing else. -/
structure Forwards (s : Socket) (d : Datagram) (q : ℕ) : Prop where
  lt : q < s.nextQueue
  incoming : q ∉ s.incoming.items
  remote : (s.queues q).remote = d.source
  receiver : (s.queues q).receiver = true
  progress : s.readTask = .sending d q true ∧ (s.queues q).datagrams.items = [] ∨
    (s.readTask = .inserting d.source q true ∨ s.readTask = .offering q) ∧
      (s.queues q).datagrams.items = [d]

theorem Forwards.holds {d : Datagram} {q : ℕ} (h : s.Forwards d q) :
    s.readTask.holds = some q := by
  rcases h.progress with ⟨hr, _⟩ | ⟨hr | hr, _⟩ <;> rw [hr] <;> rfl

/-- Whatever the other tasks do, the forwarding goes on until the connection is handed on. -/
theorem Forwards.next {d : Datagram} {q : ℕ} (h : s.Forwards d q) (he : s.enabled e)
    (hoff : s.readTask ≠ .offering q) : (s.next e).Forwards d q := by
  have hheld : s.held q := .inl h.holds
  have hle := s.nextQueue_le e
  have hdrop : ¬ s.drops e q := by
    rintro (rfl | rfl | ⟨rfl, hm⟩)
    · exact he.2.2 hheld
    · exact hoff he.1
    · exact h.incoming hm
  have hinc : q ∉ (s.next e).incoming.items := by
    intro hm
    rcases incoming_of_next he hm with hm | rfl
    · exact h.incoming hm
    · exact hoff he.1
  have hsame : (∀ d' b, e ≠ .send d' q b) → (s.next e).queues q = s.queues q := by
    intro hsend
    rcases s.next_queue e h.lt with hq | ⟨d', b, rfl, _⟩ | ⟨d', rfl, _⟩ | ⟨hd, _⟩
    · exact hq
    · exact absurd rfl (hsend d' b)
    · exact absurd hheld he.2.2.1
    · exact absurd hd hdrop
  refine ⟨Nat.lt_of_lt_of_le h.lt hle, hinc, by rw [s.next_remote e h.lt, h.remote],
    s.receiver_next e h.lt h.receiver hdrop, ?_⟩
  rcases h.progress with ⟨hr, hi⟩ | ⟨hr | hr, hi⟩
  · cases e with
    | datagram | insert | offer | offerClosed | recvError | closed => simp [enabled, hr] at he
    | sendClosed d' p b =>
      obtain ⟨rfl, rfl, rfl⟩ := ReadTask.sending.inj (hr.symm.trans he.1)
      exact absurd h.receiver (by simp [he.2])
    | send d' p b =>
      obtain ⟨rfl, rfl, rfl⟩ := ReadTask.sending.inj (hr.symm.trans he.1)
      refine .inr ⟨.inl rfl, ?_⟩
      simpa [Socket.next, updateQueue, hi] using put_items (s.queues q) d he.2.2
    | _ => exact .inl ⟨hr, by rw [hsame (by simp)]; exact hi⟩
  · cases e with
    | datagram | send | sendClosed | offer | offerClosed | recvError | closed =>
      simp [enabled, hr] at he
    | insert remote p b =>
      obtain ⟨rfl, rfl, rfl⟩ := ReadTask.inserting.inj (hr.symm.trans he)
      exact .inr ⟨.inr rfl, hi⟩
    | _ => exact .inr ⟨.inl hr, by rw [hsame (by simp)]; exact hi⟩
  · exact absurd hr hoff

theorem Forwards.enabled {d : Datagram} {q : ℕ} (h : s.Forwards d q)
    (hoff : s.readTask ≠ .offering q) :
    s.enabled (.send d q true) ∨ s.enabled (.insert d.source q true) := by
  rcases h.progress with ⟨hr, hi⟩ | ⟨hr | hr, _⟩
  · exact .inl ⟨hr, h.receiver, by simp [BoundedQueue.full, hi]⟩
  · exact .inr hr
  · exact absurd hr hoff

/-- What the function has to do for a datagram of `addr`: uninterrupted it returns a new
connection, and with the other tasks in between it keeps to this connection. -/
structure YieldsConnection (s : Socket) (buf : Bytes) (addr : SocketAddr) : Prop where
  returns : ∃ t, s.forwardOrNewConnection buf addr = some (some s.nextQueue, t) ∧
    t.Forwards ⟨s.received.length, addr, buf⟩ s.nextQueue
  interleaved : ∀ trace t, Path machine (s.lookup buf addr) trace t →
    (∀ x ∈ trace, x.source.readTask ≠ .offering s.nextQueue) →
    t.Forwards ⟨s.received.length, addr, buf⟩ s.nextQueue

/-- An unconnected remote gets a new connection when its next datagram arrives, and no entry of
the map leads to a connection that is gone. -/
structure CanReturn (s : Socket) : Prop where
  yields : ∀ addr buf, s.Unconnected addr → s.readTask = .receiving → s.YieldsConnection buf addr
  registered : ∀ addr q, s.connections.lookup addr = some q → (s.queues q).receiver = true

theorem lookup_forwards (hh : s.Handover) (buf : Bytes) {addr : SocketAddr}
    (hl : s.connections.lookup addr = none) (hs : s.readTask = .receiving) :
    (s.lookup buf addr).Forwards ⟨s.received.length, addr, buf⟩ s.nextQueue := by
  have hfresh := datagram_fresh buf hl
  have hinc := next_incoming (s := s) (e := .datagram buf addr) hs
  simp only [Socket.next] at hfresh hinc
  refine ⟨by omega, ?_, ?_, ?_, .inl ⟨?_, ?_⟩⟩
  · rw [hinc]
    exact fun hm => Nat.lt_irrefl _ (hh.incoming _ hm)
  · rw [hfresh.2]
    rfl
  · rw [hfresh.2]
    rfl
  · simp [lookup, hl]
  · rw [hfresh.2]
    rfl

theorem yieldsConnection (hh : s.Handover) (buf : Bytes) {addr : SocketAddr}
    (hl : s.connections.lookup addr = none) (hs : s.readTask = .receiving) :
    s.YieldsConnection buf addr := by
  have hstart := lookup_forwards hh buf hl hs
  refine ⟨?_, fun trace t path hoff => ?_⟩
  · obtain ⟨q, b, hread, hq⟩ := s.lookup_readTask buf addr
    rcases hq with ⟨hq, _⟩ | ⟨_, rfl, rfl⟩
    · simp [hl] at hq
    · have hempty : ((s.lookup buf addr).queues s.nextQueue).datagrams.items = [] := by
        rcases hstart.progress with ⟨_, hi⟩ | ⟨hr | hr, _⟩
        · exact hi
        · cases hread.symm.trans hr
        · cases hread.symm.trans hr
      have hroom : ((s.lookup buf addr).queues s.nextQueue).datagrams.full = false := by
        simp [BoundedQueue.full, hempty]
      have hsend := hstart.next (e := .send _ _ _) ⟨hread, hstart.receiver, hroom⟩
        (by simp [hread])
      have hinsert := hsend.next (e := .insert addr s.nextQueue true) rfl
        (by simp [Socket.next])
      refine ⟨_, ?_, hinsert⟩
      simp [forwardOrNewConnection, hread, hstart.receiver, hroom]
  · have hinv := path.guarded_invariant
      (P := fun u => u.Forwards ⟨s.received.length, addr, buf⟩ s.nextQueue)
      (G := fun u _ => u.readTask ≠ .offering s.nextQueue) (fun u e hu hg he => hu.next he hg)
      hstart hoff
    exact hinv.1

/-- An entry of the map leads to a queue of its address, so only closed entries stand in the way
of a remote that wants to return. -/
theorem canReturn_of_registered (hw : s.WellFormed) (hh : s.Handover)
    (h : ∀ addr q, s.connections.lookup addr = some q → (s.queues q).receiver = true) :
    s.CanReturn := by
  refine ⟨fun addr buf hun hs => ?_, h⟩
  refine yieldsConnection hh buf ?_ hs
  cases hl : s.connections.lookup addr with
  | none => rfl
  | some q =>
    obtain ⟨hlt, hremote⟩ := hw.entry addr q hl
    have hrec := h addr q hl
    simp [hun q hlt hremote] at hrec

theorem CanReturn.bind : Socket.bind.CanReturn :=
  canReturn_of_registered .bind .bind (by simp [Socket.bind, AList.lookup_empty])

/-- No connection is dropped while the map leads to it, and the read task re-inserts none that
was dropped meanwhile. -/
def keepsReceivers (s : Socket) : Event → Prop
  | .insert _ q _ => (s.queues q).receiver = true
  | .drop q | .offerClosed q => s.connections.lookup (s.queues q).remote ≠ some q
  | .dropAcceptor => ∀ q ∈ s.incoming.items, s.connections.lookup (s.queues q).remote ≠ some q
  | _ => True

theorem not_drops_of_keeps (hw : s.WellFormed) (hg : s.keepsReceivers e) {addr : SocketAddr}
    {q : ℕ} (hl : s.connections.lookup addr = some q) : ¬ s.drops e q := by
  have hremote := (hw.entry addr q hl).2
  rintro (rfl | rfl | ⟨rfl, hm⟩)
  · exact hg (hremote ▸ hl)
  · exact hg (hremote ▸ hl)
  · exact hg q hm (hremote ▸ hl)

theorem CanReturn.next (hw : s.WellFormed) (hh : s.Handover) (hs : s.CanReturn)
    (he : s.enabled e) (hg : s.keepsReceivers e) : (s.next e).CanReturn := by
  refine canReturn_of_registered (hw.next he) (hh.next he) fun addr q hl => ?_
  have keep : s.connections.lookup addr = some q → ((s.next e).queues q).receiver = true :=
    fun hold => s.receiver_next e (hw.entry addr q hold).1 (hs.registered addr q hold)
      (not_drops_of_keeps hw hg hold)
  rcases lookup_of_next hl with ⟨hold, _⟩ | ⟨b, rfl⟩ | ⟨rfl, rfl⟩
  · exact keep hold
  · exact hg
  · rw [(s.connect_fresh addr).2]
    rfl

theorem keepsReceivers_of_next (he : s.enabled e) (ht : (s.next e).CanReturn) :
    s.keepsReceivers e := by
  cases e with
  | insert remote q b => exact ht.registered remote q (by simp [next_lookup])
  | drop q =>
    intro hl
    have := ht.registered _ q (by rw [next_lookup]; exact hl)
    simp [Socket.next, updateQueue] at this
  | offerClosed q =>
    intro hl
    have := ht.registered _ q (by rw [next_lookup]; exact hl)
    simp [Socket.next, updateQueue] at this
  | dropAcceptor =>
    intro q hm hl
    have := ht.registered _ q (by rw [next_lookup]; exact hl)
    simp [Socket.next, hm] at this
  | _ => trivial

/-- The map leads to a closed queue of the address, and the read task brings no other one. -/
structure Discards (s : Socket) (addr : SocketAddr) (q : ℕ) : Prop where
  lt : q < s.nextQueue
  entry : s.connections.lookup addr = some q
  closed : (s.queues q).receiver = false
  target : ∀ p, s.readTask.target = some (addr, p) → p = q

/-- A closed entry stays as it is until the address is connected to again. -/
theorem Discards.next {addr : SocketAddr} {q : ℕ} (h : s.Discards addr q) (he : s.enabled e)
    (hcon : e ≠ .connect addr) : (s.next e).Discards addr q := by
  have hle := s.nextQueue_le e
  refine ⟨Nat.lt_of_lt_of_le h.lt hle, ?_, ?_, fun p hp => ?_⟩
  · apply lookup_next h.entry _ hcon
    rintro p b rfl
    apply h.target p
    rw [he]
    rfl
  · cases hr : ((s.next e).queues q).receiver with
    | false => rfl
    | true => exact absurd (s.receiver_of_next e h.lt hr) (by simp [h.closed])
  · rcases next_target he hp with ⟨ht, _⟩ | ⟨bytes, rfl, hl | ⟨hl, rfl⟩⟩
    · exact h.target p ht
    · exact Option.some.inj (hl.symm.trans h.entry)
    · simp [h.entry] at hl

theorem Discards.returns_none {addr : SocketAddr} {q : ℕ} (h : s.Discards addr q) (buf : Bytes) :
    ∃ t, s.forwardOrNewConnection buf addr = some (none, t) ∧ t.queues = s.queues := by
  have hqueues : (s.lookup buf addr).queues = s.queues := by simp [lookup, h.entry]
  obtain ⟨p, b, hread, ⟨hp, rfl⟩ | ⟨hp, _⟩⟩ := s.lookup_readTask buf addr
  · obtain rfl := Option.some.inj (hp.symm.trans h.entry)
    refine ⟨(s.lookup buf addr).next (.sendClosed ⟨s.received.length, addr, buf⟩ p false), ?_,
      hqueues⟩
    simp [forwardOrNewConnection, hread, hqueues, h.closed]
  · simp [h.entry] at hp

end Socket

theorem discards_until_connect {s t : Socket} {trace : List (Transition Socket Event)}
    {addr : SocketAddr} {q : ℕ} (path : Path machine s trace t) (h : s.Discards addr q)
    (hcon : ∀ x ∈ trace, x.label ≠ .connect addr) : t.Discards addr q := by
  have hinv := path.guarded_invariant (P := fun u => u.Discards addr q)
    (G := fun _ e => e ≠ .connect addr) (fun u e hu hg he => hu.next he hg) h hcon
  exact hinv.1

/-- The remotes can return throughout a run if and only if no step of it leaves the map with an
entry whose connection is gone. -/
theorem canReturn_iff (r : Run machine) :
    (∀ x ∈ r.transitions, x.target.CanReturn) ↔
      ∀ x ∈ r.transitions, x.source.keepsReceivers x.label := by
  apply r.guarded_iff (I := fun s => s.WellFormed ∧ s.Handover)
  · exact fun s hs => hs ▸ ⟨⟨.bind, .bind⟩, .bind⟩
  · exact fun s e hs he => ⟨hs.1.next he, hs.2.next he⟩
  · exact fun s e hs hreturn he =>
      ⟨Socket.keepsReceivers_of_next he, hreturn.next hs.1 hs.2 he⟩

section Dropped

def restartingAddr : SocketAddr := .v6 ⟨2, 65041, 0, 0⟩

/-- The connection made for the first datagram is taken up and dropped, as after a handshake
that failed; the remote starts again from its fixed port. -/
def droppedEvents : List Event :=
  [.datagram [22] restartingAddr, .send ⟨0, restartingAddr, [22]⟩ 0 true,
    .insert restartingAddr 0 true, .offer 0, .take 0, .drop 0]

theorem dropped_cannot_return : ∃ s, Reachable machine s ∧ s.Unconnected restartingAddr ∧
    s.readTask = .receiving ∧ ¬ s.CanReturn ∧
    ∀ buf, ∃ t, s.forwardOrNewConnection buf restartingAddr = some (none, t) := by
  obtain ⟨s, hs, hp⟩ := exec_reachable (M := machine) rfl droppedEvents
    (p := fun s => decide (s.connections.lookup restartingAddr = some 0 ∧ s.nextQueue = 1 ∧
      (s.queues 0).receiver = false ∧ s.readTask = .receiving)) (by decide +kernel)
  obtain ⟨hlook, hnext, hrec, hread⟩ := of_decide_eq_true hp
  have hdis : s.Discards restartingAddr 0 :=
    ⟨by omega, hlook, hrec, by simp [hread, ReadTask.target]⟩
  refine ⟨s, hs, fun q hq _ => ?_, hread, fun hreturn => ?_, fun buf => ?_⟩
  · obtain rfl : q = 0 := by omega
    exact hrec
  · have := hreturn.registered restartingAddr 0 hlook
    simp [hrec] at this
  · obtain ⟨t, ht, _⟩ := hdis.returns_none buf
    exact ⟨t, ht⟩

end Dropped

end Uip.Io
