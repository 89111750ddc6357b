import Uip.IoSocketInvariant

/-! Which role takes a datagram: it goes to the connection that its lookup found, or to the one
that the lookup made. -/
namespace Uip.Io
open TransitionSystem

/-- A lookup: the number of the datagram, and the origin of the connection that was found. -/
structure Mark where
  number : ℕ
  found : Option Origin
  deriving DecidableEq

def Mark.taker (m : Mark) : Origin := m.found.getD .datagram

namespace Socket

variable {s : Socket} {e : Event} {addr : SocketAddr} {marks : List Mark}

def mark (s : Socket) (addr : SocketAddr) : Mark :=
  ⟨s.received.length, (s.connections.lookup addr).map fun q => (s.queues q).origin⟩

/-- A connection of this origin has been handed the datagram. -/
def Handed (s : Socket) (number : ℕ) (origin : Origin) : Prop :=
  ∃ q, ∃ d ∈ (s.queues q).history, d.number = number ∧ (s.queues q).origin = origin

/-- The marked datagrams go where their lookups sent them. -/
structure Routes (s : Socket) (addr : SocketAddr) (marks : List Mark) : Prop where
  unused : ∀ q, s.nextQueue ≤ q → (s.queues q).history = []
  past : ∀ m ∈ marks, m.number < s.received.length
  history : ∀ q, ∀ d ∈ (s.queues q).history, d.number < s.received.length ∧
    ∀ m ∈ marks, m.number = d.number → (s.queues q).origin = m.taker
  sending : ∀ d q b, s.readTask = .sending d q b → d.number < s.received.length ∧
    ∀ m ∈ marks, m.number = d.number → (s.queues q).origin = m.taker
  unregistered : s.connections.lookup addr = none → ∀ m ∈ marks, m.found = none
  made : ∀ m ∈ marks, m.found = none → s.Handed m.number .datagram ∨
    (∃ d q, s.readTask = .sending d q true ∧ d.number = m.number) ∧ ∀ m' ∈ marks, m'.found = none

theorem Routes.bind (addr : SocketAddr) : Routes .bind addr [] where
  unused _ _ := rfl
  past := by simp
  history q d hd := by simp [Socket.bind, DatagramQueue.new, DatagramQueue.close] at hd
  sending := by simp [Socket.bind]
  unregistered := by simp
  made := by simp

theorem next_unused (hw : s.WellFormed) (he : s.enabled e)
    (unused : ∀ q, s.nextQueue ≤ q → (s.queues q).history = []) {q : ℕ}
    (hq : s.nextQueue ≤ q) : ((s.next e).queues q).history = [] := by
  have hold := unused q hq
  cases e with
  | datagram bytes remote =>
    simp only [next, lookup]
    split
    · exact hold
    · by_cases hn : q = s.nextQueue
      · subst hn
        simp [channel, updateQueue, DatagramQueue.new]
      · simpa [channel, updateQueue, hn] using hold
  | connect remote =>
    by_cases hn : q = s.nextQueue
    · subst hn
      simp [next, connect, channel, updateQueue, DatagramQueue.new]
    · simpa [next, connect, channel, updateQueue, hn] using hold
  | send d p b =>
    have hp := (hw.target d.source p (by rw [he.1]; rfl)).1
    have hn : q ≠ p := by omega
    simpa [next, updateQueue, hn] using hold
  | read p d =>
    have hn : q ≠ p := by
      have := he.1
      omega
    simpa [next, updateQueue, hn] using hold
  | drop p | offerClosed p =>
    by_cases hn : q = p
    · subst hn
      simpa [next, updateQueue] using hold
    · simpa [next, updateQueue, hn] using hold
  | dropAcceptor =>
    simp only [next]
    split_ifs <;> simpa using hold
  | _ => exact hold

theorem history_of_next (hw : s.WellFormed) (he : s.enabled e)
    (unused : ∀ q, s.nextQueue ≤ q → (s.queues q).history = []) {q : ℕ} {d : Datagram}
    (hd : d ∈ ((s.next e).queues q).history) :
    ((s.next e).queues q).origin = (s.queues q).origin ∧
      (d ∈ (s.queues q).history ∨ ∃ b, e = .send d q b) := by
  by_cases hq : q < s.nextQueue
  · refine ⟨s.next_origin e hq, ?_⟩
    rcases s.next_queue e hq with h | ⟨d', b, rfl, h⟩ | ⟨_, _, h⟩ | ⟨_, h⟩ <;> rw [h] at hd
    · exact .inl hd
    · rw [put_history] at hd
      rcases List.mem_append.mp hd with hd | hd
      · exact .inl hd
      · obtain rfl := List.mem_singleton.mp hd
        exact .inr ⟨b, rfl⟩
    · exact .inl hd
    · exact .inl hd
  · rw [next_unused hw he unused (Nat.le_of_not_lt hq)] at hd
    simp at hd

theorem Handed.next (unused : ∀ q, s.nextQueue ≤ q → (s.queues q).history = []) {number : ℕ}
    {origin : Origin} (h : s.Handed number origin) : (s.next e).Handed number origin := by
  obtain ⟨q, d, hd, hn, ho⟩ := h
  have hq : q < s.nextQueue := by
    by_contra hq
    simp [unused q (Nat.le_of_not_lt hq)] at hd
  exact ⟨q, d, s.history_next e hq hd, hn, (s.next_origin e hq).trans ho⟩

theorem sending_of_next (he : s.enabled e) {d : Datagram} {q : ℕ} {b : Bool}
    (h : (s.next e).readTask = .sending d q b) : s.readTask = .sending d q b ∨
      ∃ bytes remote, e = .datagram bytes remote ∧ d = ⟨s.received.length, remote, bytes⟩ ∧
        (s.connections.lookup remote = some q ∨
          s.connections.lookup remote = none ∧ q = s.nextQueue) := by
  cases e with
  | datagram bytes remote =>
    obtain ⟨p, c, hp, hfound⟩ := s.lookup_readTask bytes remote
    have hsame : ReadTask.sending d q b = .sending ⟨s.received.length, remote, bytes⟩ p c :=
      h.symm.trans hp
    obtain ⟨rfl, rfl, rfl⟩ := ReadTask.sending.inj hsame
    refine .inr ⟨bytes, remote, rfl, rfl, ?_⟩
    rcases hfound with ⟨hl, -⟩ | ⟨hl, hq, -⟩
    · exact .inl hl
    · exact .inr ⟨hl, hq⟩
  | insert remote p c => cases c <;> simp [next] at h
  | send | sendClosed | offer | offerClosed | recvError | closed => simp [next] at h
  | close | connect | take | read | drop | dropAcceptor => exact .inl h

/-- The read task goes on sending to the connection it made, until the queue takes the datagram. -/
theorem sending_next {d : Datagram} {q : ℕ} (hh : s.Handover) (he : s.enabled e)
    (h : s.readTask = .sending d q true) :
    (s.next e).readTask = .sending d q true ∨ e = .send d q true := by
  cases e with
  | send d' q' b' =>
    obtain ⟨rfl, rfl, rfl⟩ := ReadTask.sending.inj (h.symm.trans he.1)
    exact .inr rfl
  | sendClosed d' q' b' =>
    obtain ⟨rfl, rfl, rfl⟩ := ReadTask.sending.inj (h.symm.trans he.1)
    have halive := hh.alive q (.inl (by rw [h]; rfl))
    simp [he.2] at halive
  | close | connect | take | read | drop | dropAcceptor => exact .inl h
  | insert | datagram | recvError | closed | offer | offerClosed =>
    simp [enabled, h] at he

theorem next_sending {d : Datagram} {q : ℕ} (hh : s.Handover) (he : s.enabled e)
    (h : s.readTask = .sending d q true) : (s.next e).readTask = .sending d q true ∨
      (s.next e).Handed d.number .datagram := by
  have hheld : s.held q := .inl (by rw [h]; rfl)
  rcases sending_next hh he h with hs | rfl
  · exact .inl hs
  · refine .inr ⟨q, d, ?_, rfl, ?_⟩
    · simp [next, updateQueue]
    · exact (s.next_origin _ (hh.lt hheld)).trans (hh.origin q hheld)

theorem lookup_none_of_next (h : (s.next e).connections.lookup addr = none) :
    s.connections.lookup addr = none := by
  rw [next_lookup] at h
  cases e with
  | insert remote q b =>
    by_cases ha : addr = remote
    · simp [ha] at h
    · simpa [ha] using h
  | connect remote =>
    by_cases ha : addr = remote
    · simp [ha] at h
    · simpa [ha] using h
  | _ => exact h

theorem received_le (s : Socket) (e : Event) : s.received.length ≤ (s.next e).received.length := by
  rw [next_received]
  cases e <;> simp

theorem Routes.next (h : s.Routes addr marks) (hw : s.WellFormed) (hh : s.Handover)
    (he : s.enabled e) : (s.next e).Routes addr marks := by
  have hle := s.received_le e
  refine ⟨fun q hq => ?_, fun m hm => ?_, fun q d hd => ?_, fun d q b hs => ?_, fun hl => ?_,
    fun m hm hnone => ?_⟩
  · exact next_unused hw he h.unused (Nat.le_trans (s.nextQueue_le e) hq)
  · exact Nat.lt_of_lt_of_le (h.past m hm) hle
  · obtain ⟨horigin, hd⟩ := history_of_next hw he h.unused hd
    rw [horigin]
    rcases hd with hd | ⟨b, rfl⟩
    · exact ⟨Nat.lt_of_lt_of_le (h.history q d hd).1 hle, (h.history q d hd).2⟩
    · exact ⟨Nat.lt_of_lt_of_le (h.sending d q b he.1).1 hle, (h.sending d q b he.1).2⟩
  · rcases sending_of_next he hs with hs | ⟨bytes, remote, rfl, rfl, -⟩
    · have hq : q < s.nextQueue := (hw.target d.source q (by rw [hs]; rfl)).1
      rw [s.next_origin e hq]
      exact ⟨Nat.lt_of_lt_of_le (h.sending d q b hs).1 hle, (h.sending d q b hs).2⟩
    · refine ⟨by simp [next_received], fun m hm hn => ?_⟩
      have hpast := h.past m hm
      simp at hn
      omega
  · exact h.unregistered (lookup_none_of_next hl)
  · rcases h.made m hm hnone with hhanded | ⟨⟨d, q, hs, hn⟩, hall⟩
    · exact .inl (hhanded.next h.unused)
    · rcases next_sending hh he hs with hs | hhanded
      · exact .inr ⟨⟨d, q, hs, hn⟩, hall⟩
      · exact .inl (hn ▸ hhanded)

/-- The lookup sends the datagram to a connection of the role that the mark tells. -/
theorem origin_of_lookup (hw : s.WellFormed) {bytes : Bytes} {d : Datagram} {q : ℕ} {b : Bool}
    (h : (s.next (.datagram bytes addr)).readTask = .sending d q b) :
    d.number = s.received.length ∧
      ((s.next (.datagram bytes addr)).queues q).origin = (s.mark addr).taker := by
  obtain ⟨p, c, hp, hfound⟩ := s.lookup_readTask bytes addr
  have hsame : ReadTask.sending d q b = .sending ⟨s.received.length, addr, bytes⟩ p c :=
    h.symm.trans hp
  obtain ⟨rfl, rfl, rfl⟩ := ReadTask.sending.inj hsame
  refine ⟨rfl, ?_⟩
  rcases hfound with ⟨hl, -⟩ | ⟨hl, rfl, -⟩
  · rw [s.next_origin _ (hw.entry addr q hl).1]
    simp [Socket.mark, Mark.taker, hl]
  · rw [(s.datagram_fresh bytes hl).2]
    simp [Socket.mark, Mark.taker, hl, DatagramQueue.new]

theorem Routes.mark (h : s.Routes addr marks) (hw : s.WellFormed) (hh : s.Handover)
    {bytes : Bytes} (he : s.enabled (.datagram bytes addr)) :
    (s.next (.datagram bytes addr)).Routes addr (marks ++ [s.mark addr]) := by
  have hnext := h.next hw hh he
  have hreceived : (s.next (.datagram bytes addr)).received.length = s.received.length + 1 := by
    simp [next_received]
  refine ⟨hnext.unused, fun m hm => ?_, fun q d hd => ?_, fun d q b hs => ?_, fun hl => ?_,
    fun m hm hnone => ?_⟩
  · rcases List.mem_append.mp hm with hm | hm
    · exact hnext.past m hm
    · obtain rfl := List.mem_singleton.mp hm
      rw [hreceived]
      exact Nat.lt_succ_self _
  · refine ⟨(hnext.history q d hd).1, fun m hm hn => ?_⟩
    rcases List.mem_append.mp hm with hm | hm
    · exact (hnext.history q d hd).2 m hm hn
    · obtain rfl := List.mem_singleton.mp hm
      obtain ⟨-, hd⟩ := history_of_next hw he h.unused hd
      rcases hd with hd | ⟨b, heq⟩
      · have hlt := (h.history q d hd).1
        have hnumber : s.received.length = d.number := hn
        omega
      · cases heq
  · obtain ⟨hnumber, horigin⟩ := origin_of_lookup hw hs
    refine ⟨(hnext.sending d q b hs).1, fun m hm hn => ?_⟩
    rcases List.mem_append.mp hm with hm | hm
    · have hpast := h.past m hm
      omega
    · obtain rfl := List.mem_singleton.mp hm
      exact horigin
  · have hnone := lookup_none_of_next hl
    intro m hm
    rcases List.mem_append.mp hm with hm | hm
    · exact h.unregistered hnone m hm
    · obtain rfl := List.mem_singleton.mp hm
      simp [Socket.mark, hnone]
  · rcases List.mem_append.mp hm with hm | hm
    · rcases h.made m hm hnone with hhanded | ⟨⟨d, q, hs, -⟩, -⟩
      · exact .inl (hhanded.next h.unused)
      · simp [enabled, hs] at he
    · obtain rfl := List.mem_singleton.mp hm
      have hl : s.connections.lookup addr = none := by simpa [Socket.mark] using hnone
      refine .inr ⟨⟨⟨s.received.length, addr, bytes⟩, s.nextQueue, ?_, rfl⟩, fun m hm => ?_⟩
      · simp [Socket.next, lookup, hl]
      · rcases List.mem_append.mp hm with hm | hm
        · exact h.unregistered hl m hm
        · rw [List.mem_singleton.mp hm]
          exact hnone

/-- The invariant of a demultiplexer of which the lookups for `addr` are marked. -/
structure Followed (s : Socket) (addr : SocketAddr) (marks : List Mark) : Prop where
  wellFormed : s.WellFormed
  handover : s.Handover
  routes : s.Routes addr marks

theorem Followed.bind (addr : SocketAddr) : Followed .bind addr [] := ⟨.bind, .bind, .bind addr⟩

theorem Followed.next (h : s.Followed addr marks) (he : s.enabled e) :
    (s.next e).Followed addr marks :=
  ⟨h.wellFormed.next he, h.handover.next he, h.routes.next h.wellFormed h.handover he⟩

theorem Followed.mark (h : s.Followed addr marks) {bytes : Bytes}
    (he : s.enabled (.datagram bytes addr)) :
    (s.next (.datagram bytes addr)).Followed addr (marks ++ [s.mark addr]) :=
  ⟨h.wellFormed.next he, h.handover.next he, h.routes.mark h.wellFormed h.handover he⟩

/-- A marked datagram has been handed to a connection of the role that its mark tells. -/
theorem Followed.taker (h : s.Followed addr marks) {m : Mark} (hm : m ∈ marks) {origin : Origin}
    (handed : s.Handed m.number origin) : m.taker = origin := by
  obtain ⟨q, d, hd, hn, ho⟩ := handed
  exact ((h.routes.history q d hd).2 m hm hn.symm).symm.trans ho

theorem Followed.registered (h : s.Followed addr marks)
    (client : ∃ m ∈ marks, s.Handed m.number .connect)
    (accept : ∀ m ∈ marks, ¬ s.Handed m.number .datagram) :
    (∃ m ∈ marks, m.found = some .connect) ∧ ∀ m ∈ marks, m.found ≠ none := by
  obtain ⟨m, hm, handed⟩ := client
  have hfound : m.found = some .connect := by
    have htaker := h.taker hm handed
    cases hf : m.found with
    | none => simp [Mark.taker, hf] at htaker
    | some origin =>
      rw [Mark.taker, hf, Option.getD_some] at htaker
      rw [htaker]
  refine ⟨⟨m, hm, hfound⟩, fun m' hm' hnone => ?_⟩
  rcases h.routes.made m' hm' hnone with hhanded | ⟨-, hall⟩
  · exact accept m' hm' hhanded
  · have hnot := hall m hm
    simp [hfound] at hnot

end Socket

end Uip.Io
