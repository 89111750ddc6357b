import Uip.IoSocketRoles

/-! The demultiplexer keeps remotes apart: each queue takes datagrams of its own remote only, in
the order in which they came and each of them once, and the first one of an accepted connection is
the one that made it. -/
namespace Uip.Io
open TransitionSystem

namespace Socket

variable {s : Socket} {e : Event} {trace : List (Transition Socket Event)}

def receivedFrom (received : List Datagram) (remote : SocketAddr) : List Datagram :=
  received.filter fun d => d.source = remote

theorem receivedFrom_append (received : List Datagram) (d : Datagram) :
    receivedFrom (received ++ [d]) d.source = receivedFrom received d.source ++ [d] := by
  simp [receivedFrom]

theorem receivedFrom_sublist (received : List Datagram) (d : Datagram) (remote : SocketAddr) :
    (receivedFrom received remote).Sublist (receivedFrom (received ++ [d]) remote) :=
  (List.sublist_append_left received [d]).filter _

theorem next_history (hw : s.WellFormed) (he : s.enabled e)
    (unused : ∀ q, s.nextQueue ≤ q → (s.queues q).history = []) (q : ℕ) :
    (((s.next e).queues q).history = [] ∨
      ((s.next e).queues q).history = (s.queues q).history ∧
        ((s.next e).queues q).remote = (s.queues q).remote) ∨
    ∃ d b, e = .send d q b ∧ ((s.next e).queues q).history = (s.queues q).history ++ [d] ∧
      ((s.next e).queues q).remote = d.source := by
  by_cases hq : q < s.nextQueue
  · have hr := s.next_remote e hq
    rcases s.next_queue e hq with h | ⟨d, b, rfl, h⟩ | ⟨_, _, h⟩ | ⟨_, h⟩
    · exact .inl (.inr ⟨by rw [h], hr⟩)
    · have ht : s.readTask.target = some (d.source, q) := by
        rw [he.1]
        rfl
      exact .inr ⟨d, b, rfl, by rw [h, put_history], hr.trans (hw.target _ _ ht).2⟩
    · exact .inl (.inr ⟨by rw [h, pop_history], hr⟩)
    · exact .inl (.inr ⟨by rw [h, close_history], hr⟩)
  · exact .inl (.inl (next_unused hw he unused (Nat.le_of_not_lt hq)))

/-- The invariant of the queues' contents. What the read task sends came last, and no queue has
taken it. -/
structure Apart (s : Socket) : Prop where
  unused : ∀ q, s.nextQueue ≤ q → (s.queues q).history = []
  numbers : s.received.map Datagram.number = List.range s.received.length
  taken : ∀ q, (s.queues q).history.Sublist (receivedFrom s.received (s.queues q).remote)
  single : ∀ d p q, d ∈ (s.queues p).history → d ∈ (s.queues q).history → p = q
  sending : ∀ d q b, s.readTask = .sending d q b → ∃ older, s.received = older ++ [d] ∧
    ∀ p, (s.queues p).history.Sublist (receivedFrom older (s.queues p).remote)

theorem Apart.bind : Socket.bind.Apart where
  unused _ _ := rfl
  numbers := rfl
  taken _ := List.nil_sublist _
  single d p q hd := by simp [Socket.bind, DatagramQueue.new, DatagramQueue.close] at hd
  sending := by simp [Socket.bind]

theorem Apart.nodup (h : s.Apart) : s.received.Nodup := by
  apply List.Nodup.of_map Datagram.number
  rw [h.numbers]
  exact List.nodup_range

theorem Apart.not_mem_history (h : s.Apart) {d : Datagram} {q : ℕ} {b : Bool}
    (hs : s.readTask = .sending d q b) (p : ℕ) : d ∉ (s.queues p).history := by
  obtain ⟨older, hr, hp⟩ := h.sending d q b hs
  have hn := h.nodup
  rw [hr] at hn
  intro hd
  have hold : d ∈ older := List.mem_of_mem_filter ((hp p).subset hd)
  exact (List.nodup_append.mp hn).2.2 d hold d (List.mem_singleton_self d) rfl

/-- Queues that take nothing in a step stay within what has been received. -/
theorem next_sublist (hw : s.WellFormed) (he : s.enabled e)
    (unused : ∀ q, s.nextQueue ≤ q → (s.queues q).history = []) {received : List Datagram}
    (h : ∀ q, (s.queues q).history.Sublist (receivedFrom received (s.queues q).remote))
    (hsend : ∀ d q b, e ≠ .send d q b) (q : ℕ) : ((s.next e).queues q).history.Sublist
      (receivedFrom received ((s.next e).queues q).remote) := by
  rcases next_history hw he unused q with (hn | ⟨hn, hr⟩) | ⟨d, b, rfl, _⟩
  · rw [hn]
    exact List.nil_sublist _
  · rw [hn, hr]
    exact h q
  · exact absurd rfl (hsend d q b)

theorem Apart.next_single (h : s.Apart) (hw : s.WellFormed) (he : s.enabled e) {d : Datagram}
    {p q : ℕ} (hp : d ∈ ((s.next e).queues p).history)
    (hq : d ∈ ((s.next e).queues q).history) : p = q := by
  obtain ⟨-, holdp⟩ := history_of_next hw he h.unused hp
  obtain ⟨-, holdq⟩ := history_of_next hw he h.unused hq
  rcases holdp with holdp | ⟨b, rfl⟩
  · rcases holdq with holdq | ⟨c, rfl⟩
    · exact h.single d p q holdp holdq
    · exact absurd holdp (h.not_mem_history he.1 p)
  · rcases holdq with holdq | ⟨c, heq⟩
    · exact absurd holdq (h.not_mem_history he.1 q)
    · exact (Event.send.inj heq).2.1

theorem Apart.next (h : s.Apart) (hw : s.WellFormed) (he : s.enabled e) : (s.next e).Apart where
  unused q hq := next_unused hw he h.unused (Nat.le_trans (s.nextQueue_le e) hq)
  numbers := by
    rw [next_received]
    cases e with
    | datagram bytes remote => simp [h.numbers, List.range_succ]
    | _ => exact h.numbers
  taken q := by
    rw [next_received]
    cases e with
    | datagram bytes remote =>
      have hold := next_sublist hw he h.unused h.taken (by simp) q
      exact hold.trans (receivedFrom_sublist _ _ _)
    | send d p b =>
      obtain ⟨older, hr, hsub⟩ := h.sending d p b he.1
      rcases next_history hw he h.unused q with (hn | ⟨hn, hremote⟩) | ⟨d', b', heq, hn, hremote⟩
      · rw [hn]
        exact List.nil_sublist _
      · rw [hn, hremote]
        exact h.taken q
      · obtain ⟨rfl, rfl, rfl⟩ := Event.send.inj heq
        have hto := hsub p
        rw [(hw.target d.source p (by rw [he.1]; rfl)).2] at hto
        rw [hn, hremote, hr, receivedFrom_append]
        exact hto.append_right [d]
    | _ => exact next_sublist hw he h.unused h.taken (by simp) q
  single d p q hp hq := h.next_single hw he hp hq
  sending d q b hs := by
    rcases sending_of_next he hs with hold | ⟨bytes, remote, rfl, rfl, -⟩
    · obtain ⟨older, hr, hsub⟩ := h.sending d q b hold
      have hnot : ∀ bytes remote, e ≠ .datagram bytes remote := by
        rintro bytes remote rfl
        simp [enabled, hold] at he
      have hnext : (s.next e).received = s.received := by
        rw [next_received]
        cases e with
        | datagram bytes remote => exact absurd rfl (hnot bytes remote)
        | _ => rfl
      refine ⟨older, hnext.trans hr, next_sublist hw he h.unused hsub ?_⟩
      rintro d' p c rfl
      simp [Socket.next] at hs
    · exact ⟨s.received, s.next_received _, next_sublist hw he h.unused h.taken (by simp)⟩

/-- The lookup of the datagram `d` found no connection and made the queue `q`. -/
def Makes (q : ℕ) (d : Datagram) (x : Transition Socket Event) : Prop :=
  x.label = .datagram d.bytes d.source ∧ x.source.connections.lookup d.source = none ∧
    x.source.nextQueue = q ∧ x.target.readTask = .sending d q true

/-- The datagram that made an accepted connection is on its way to its queue, or came there
first. -/
def Begun (s : Socket) (trace : List (Transition Socket Event)) (q : ℕ) : Prop :=
  ∃ d, (∃ x ∈ trace, Makes q d x) ∧
    (s.readTask = .sending d q true ∧ (s.queues q).history = [] ∨
      (s.queues q).history.head? = some d)

theorem makes_of_datagram (bytes : Bytes) {remote : SocketAddr}
    (hl : s.connections.lookup remote = none) : Makes s.nextQueue ⟨s.received.length, remote, bytes⟩
      ⟨s, .datagram bytes remote, s.next (.datagram bytes remote)⟩ := by
  obtain ⟨q, b, ht, ⟨hf, -⟩ | ⟨-, rfl, rfl⟩⟩ := s.lookup_readTask bytes remote
  · cases hl.symm.trans hf
  · exact ⟨rfl, hl, rfl, ht⟩

theorem Begun.next {q : ℕ} (h : s.Begun trace q) (ha : s.Apart) (hw : s.WellFormed)
    (hh : s.Handover) (he : s.enabled e) (last : List (Transition Socket Event)) :
    (s.next e).Begun (trace ++ last) q := by
  obtain ⟨d, ⟨x, hx, hm⟩, hd⟩ := h
  refine ⟨d, ⟨x, List.mem_append_left _ hx, hm⟩, ?_⟩
  rcases hd with ⟨hs, hempty⟩ | hhead
  · rcases sending_next hh he hs with hnext | rfl
    · refine .inl ⟨hnext, ?_⟩
      rcases next_history hw he ha.unused q with (hn | ⟨hn, -⟩) | ⟨d', b, rfl, -⟩
      · exact hn
      · rw [hn, hempty]
      · simp [Socket.next] at hnext
    · right
      simp [Socket.next, updateQueue, hempty]
  · right
    obtain ⟨rest, hr⟩ := List.head?_eq_some_iff.mp hhead
    have hq : q < s.nextQueue := by
      by_contra hq
      simp [ha.unused q (Nat.le_of_not_lt hq)] at hr
    rcases s.next_queue e hq with hn | ⟨_, _, _, hn⟩ | ⟨_, _, hn⟩ | ⟨_, hn⟩ <;> rw [hn] <;>
      simp [hr]

/-- Until its owner has it, nothing is read from a connection. -/
def Unread (s : Socket) : Prop :=
  ∀ q, s.held q → (s.queues q).datagrams.items = (s.queues q).history

theorem Unread.next (h : s.Unread) (hh : s.Handover) (he : s.enabled e) : (s.next e).Unread := by
  intro q hq
  rcases held_of_next he hq with hold | ⟨rfl, remote, hnew⟩
  · have hd := not_drops_of_held hh he hold hq
    rcases s.next_queue e (hh.lt hold) with hn | ⟨d, b, rfl, hn⟩ | ⟨d, rfl, -⟩ | ⟨hdrop, -⟩
    · rw [hn, h q hold]
    · rw [hn, put_items _ _ he.2.2, put_history, h q hold]
    · exact absurd hold he.2.2.1
    · exact absurd hdrop hd
  · rw [hnew]
    rfl

/-- The invariant of a demultiplexer that has come here by the steps `trace`. -/
structure Demultiplexed (s : Socket) (trace : List (Transition Socket Event)) : Prop where
  wellFormed : s.WellFormed
  handover : s.Handover
  apart : s.Apart
  unread : s.Unread
  begun : ∀ q, q < s.nextQueue → (s.queues q).origin = .datagram → s.Begun trace q

theorem Demultiplexed.bind : Socket.bind.Demultiplexed [] where
  wellFormed := .bind
  handover := .bind
  apart := .bind
  unread := by simp [Unread, held, Socket.bind, ReadTask.holds]
  begun := by simp [Socket.bind]

theorem Demultiplexed.next (h : s.Demultiplexed trace) (he : s.enabled e) :
    (s.next e).Demultiplexed (trace ++ [⟨s, e, s.next e⟩]) where
  wellFormed := h.wellFormed.next he
  handover := h.handover.next he
  apart := h.apart.next h.wellFormed he
  unread := h.unread.next h.handover he
  begun q hq ho := by
    by_cases hold : q < s.nextQueue
    · rw [s.next_origin e hold] at ho
      exact (h.begun q hold ho).next h.apart h.wellFormed h.handover he _
    · rcases s.next_fresh e with ⟨hn, -⟩ | ⟨hn, ⟨bytes, remote, rfl, hl, hnew⟩ | ⟨addr, rfl, hnew⟩⟩
      · omega
      · obtain rfl : q = s.nextQueue := by omega
        have hm := makes_of_datagram bytes hl
        exact ⟨_, ⟨_, by simp, hm⟩, .inl ⟨hm.2.2.2, by rw [hnew]; rfl⟩⟩
      · obtain rfl : q = s.nextQueue := by omega
        rw [hnew] at ho
        cases ho

theorem Demultiplexed.of_path (path : Path machine Socket.bind trace s) :
    s.Demultiplexed trace := by
  induction path with
  | nil => exact .bind
  | snoc _ next ih =>
    obtain ⟨he, rfl⟩ := guarded_step.mp next
    exact ih.next he

/-- A connection that the accept side takes up begins with the datagram that made it. -/
theorem Demultiplexed.take (h : s.Demultiplexed trace) {q : ℕ} (he : s.enabled (.take q)) :
    ∃ d, (∃ x ∈ trace, Makes q d x) ∧ (s.queues q).history.head? = some d ∧
      (s.queues q).datagrams.items.head? = some d := by
  obtain ⟨rest, hitems⟩ := List.head?_eq_some_iff.mp he.2
  have hmem : q ∈ s.incoming.items := by simp [hitems]
  have hheld : s.held q := .inr hmem
  obtain ⟨d, hmade, ⟨hs, -⟩ | hhead⟩ :=
    h.begun q (h.handover.lt hheld) (h.handover.origin q hheld)
  · exact absurd hmem (h.handover.holds q (by rw [hs]; rfl)).2
  · exact ⟨d, hmade, hhead, by rw [h.unread q hheld, hhead]⟩

theorem Demultiplexed.taken (path : Path machine Socket.bind trace s) :
    ∀ x ∈ trace, ∀ q, x.label = .take q → ∃ d, (∃ y ∈ trace, Makes q d y) ∧
      (x.source.queues q).history.head? = some d ∧
      (x.source.queues q).datagrams.items.head? = some d := by
  induction path with
  | nil => simp
  | @snoc t u trace e prior next ih =>
    intro x hx q hl
    rcases List.mem_append.mp hx with hx | hx
    · obtain ⟨d, ⟨y, hy, hm⟩, hd⟩ := ih x hx q hl
      exact ⟨d, ⟨y, List.mem_append_left _ hy, hm⟩, hd⟩
    · obtain rfl := List.mem_singleton.mp hx
      obtain rfl : e = .take q := hl
      obtain ⟨he, -⟩ := guarded_step.mp next
      obtain ⟨d, ⟨y, hy, hm⟩, hd⟩ := (Demultiplexed.of_path prior).take he
      exact ⟨d, ⟨y, List.mem_append_left _ hy, hm⟩, hd⟩

end Socket

/-- No run mixes the datagrams of remotes, or queues one twice. -/
theorem datagrams_kept_apart (r : Run machine) :
    (∀ q, (r.final.queues q).history.Sublist
      (r.final.received.filter fun d => d.source = (r.final.queues q).remote)) ∧
    (∀ d p q, d ∈ (r.final.queues p).history → d ∈ (r.final.queues q).history → p = q) ∧
    (∀ q, (r.final.queues q).history.Nodup) ∧
    ∀ x ∈ r.transitions, ∀ q, x.label = .take q →
      ∃ d, (∃ y ∈ r.transitions, Socket.Makes q d y) ∧
        (x.source.queues q).history.head? = some d ∧
        (x.source.queues q).datagrams.items.head? = some d := by
  obtain ⟨start, trace, final, rfl, path⟩ := r
  have h := Socket.Demultiplexed.of_path path
  refine ⟨h.apart.taken, h.apart.single, fun q => ?_, Socket.Demultiplexed.taken path⟩
  exact (h.apart.nodup.filter _).sublist (h.apart.taken q)

end Uip.Io
