import Uip.IoSocket

/-! What one step of the demultiplexer can change: of each queue and of the map, and what its
read task has in hand. -/
namespace Uip.Io

/-- The address, the origin and the age of a queue, which never change. -/
def DatagramQueue.identity (queue : DatagramQueue) : SocketAddr × Origin × ℕ :=
  (queue.remote, queue.origin, queue.since)

section Queues
variable (queue : DatagramQueue) (d : Datagram)

@[simp] theorem put_identity : (queue.put d).identity = queue.identity := rfl
@[simp] theorem pop_identity : queue.pop.identity = queue.identity := rfl
@[simp] theorem close_identity : queue.close.identity = queue.identity := rfl
@[simp] theorem put_receiver : (queue.put d).receiver = queue.receiver := rfl
@[simp] theorem pop_receiver : queue.pop.receiver = queue.receiver := rfl
@[simp] theorem close_receiver : queue.close.receiver = false := rfl
@[simp] theorem put_history : (queue.put d).history = queue.history ++ [d] := rfl
@[simp] theorem pop_history : queue.pop.history = queue.history := rfl
@[simp] theorem close_history : queue.close.history = queue.history := rfl

theorem put_items (h : queue.datagrams.full = false) :
    (queue.put d).datagrams.items = queue.datagrams.items ++ [d] :=
  BoundedQueue.push_items h d

theorem pop_items : queue.pop.datagrams.items = queue.datagrams.items.tail :=
  BoundedQueue.pop_items _

end Queues

namespace Socket

variable {s : Socket} {e : Event}

/-- The event drops the connection `q`. -/
def drops (s : Socket) (e : Event) (q : ℕ) : Prop :=
  e = .drop q ∨ e = .offerClosed q ∨ (e = .dropAcceptor ∧ q ∈ s.incoming.items)

/-- What a step can do to a queue that exists. -/
theorem next_queue (s : Socket) (e : Event) {q : ℕ} (hq : q < s.nextQueue) :
    (s.next e).queues q = s.queues q ∨
    (∃ d b, e = .send d q b ∧ (s.next e).queues q = (s.queues q).put d) ∨
    (∃ d, e = .read q d ∧ (s.next e).queues q = (s.queues q).pop) ∨
    (s.drops e q ∧ (s.next e).queues q = (s.queues q).close) := by
  have hne : q ≠ s.nextQueue := Nat.ne_of_lt hq
  cases e with
  | datagram bytes remote =>
    left
    simp only [next, lookup]
    split <;> simp [channel, updateQueue, hne]
  | connect addr => exact .inl (by simp [next, connect, channel, updateQueue, hne])
  | send d p b =>
    by_cases h : q = p
    · exact .inr (.inl ⟨d, b, by rw [h], by simp [next, updateQueue, h]⟩)
    · exact .inl (by simp [next, updateQueue, h])
  | read p d =>
    by_cases h : q = p
    · exact .inr (.inr (.inl ⟨d, by rw [h], by simp [next, updateQueue, h]⟩))
    · exact .inl (by simp [next, updateQueue, h])
  | offerClosed p | drop p =>
    by_cases h : q = p
    · exact .inr (.inr (.inr ⟨by simp [drops, h], by simp [next, updateQueue, h]⟩))
    · exact .inl (by simp [next, updateQueue, h])
  | dropAcceptor =>
    by_cases h : q ∈ s.incoming.items
    · exact .inr (.inr (.inr ⟨.inr (.inr ⟨rfl, h⟩), by simp [next, h]⟩))
    · exact .inl (by simp [next, h])
  | _ => exact .inl rfl

/-- A step makes at most one queue, for an unknown remote or in `connect`. -/
theorem next_fresh (s : Socket) (e : Event) :
    ((s.next e).nextQueue = s.nextQueue ∧ ∀ addr, e ≠ .connect addr) ∨
    ((s.next e).nextQueue = s.nextQueue + 1 ∧
      ((∃ bytes remote, e = .datagram bytes remote ∧ s.connections.lookup remote = none ∧
        (s.next e).queues s.nextQueue = .new remote .datagram s.received.length) ∨
      ∃ addr, e = .connect addr ∧
        (s.next e).queues s.nextQueue = .new addr .connect s.received.length)) := by
  cases e with
  | datagram bytes remote =>
    simp only [next, lookup]
    cases hl : s.connections.lookup remote with
    | some q => exact .inl ⟨rfl, by simp⟩
    | none => exact .inr ⟨rfl, .inl ⟨bytes, remote, rfl, hl, by simp [channel, updateQueue]⟩⟩
  | connect addr =>
    exact .inr ⟨rfl, .inr ⟨addr, rfl, by simp [next, connect, channel, updateQueue]⟩⟩
  | _ => exact .inl ⟨rfl, by simp⟩

theorem lookup_readTask (s : Socket) (buf : Bytes) (remote : SocketAddr) :
    ∃ q b, (s.lookup buf remote).readTask = .sending ⟨s.received.length, remote, buf⟩ q b ∧
      (s.connections.lookup remote = some q ∧ b = false ∨
        s.connections.lookup remote = none ∧ q = s.nextQueue ∧ b = true) := by
  unfold lookup
  cases hl : s.connections.lookup remote with
  | some q => exact ⟨q, false, rfl, .inl ⟨rfl, rfl⟩⟩
  | none => exact ⟨s.nextQueue, true, rfl, .inr ⟨rfl, rfl, rfl⟩⟩

theorem nextQueue_le (s : Socket) (e : Event) : s.nextQueue ≤ (s.next e).nextQueue := by
  rcases s.next_fresh e with ⟨h, _⟩ | ⟨h, _⟩ <;> omega

theorem next_identity (s : Socket) (e : Event) {q : ℕ} (hq : q < s.nextQueue) :
    ((s.next e).queues q).identity = (s.queues q).identity := by
  rcases s.next_queue e hq with h | ⟨_, _, _, h⟩ | ⟨_, _, h⟩ | ⟨_, h⟩ <;> rw [h] <;> rfl

theorem next_remote (s : Socket) (e : Event) {q : ℕ} (hq : q < s.nextQueue) :
    ((s.next e).queues q).remote = (s.queues q).remote :=
  congrArg Prod.fst (s.next_identity e hq)

theorem next_origin (s : Socket) (e : Event) {q : ℕ} (hq : q < s.nextQueue) :
    ((s.next e).queues q).origin = (s.queues q).origin :=
  congrArg (fun i => i.2.1) (s.next_identity e hq)

theorem next_since (s : Socket) (e : Event) {q : ℕ} (hq : q < s.nextQueue) :
    ((s.next e).queues q).since = (s.queues q).since :=
  congrArg (fun i => i.2.2) (s.next_identity e hq)

theorem receiver_of_next (s : Socket) (e : Event) {q : ℕ} (hq : q < s.nextQueue)
    (h : ((s.next e).queues q).receiver = true) : (s.queues q).receiver = true := by
  rcases s.next_queue e hq with hn | ⟨_, _, _, hn⟩ | ⟨_, _, hn⟩ | ⟨_, hn⟩ <;> rw [hn] at h
  · exact h
  · exact h
  · exact h
  · cases h

theorem receiver_next (s : Socket) (e : Event) {q : ℕ} (hq : q < s.nextQueue)
    (h : (s.queues q).receiver = true) (hd : ¬ s.drops e q) :
    ((s.next e).queues q).receiver = true := by
  rcases s.next_queue e hq with hn | ⟨_, _, _, hn⟩ | ⟨_, _, hn⟩ | ⟨hd', _⟩
  · rw [hn, h]
  · rw [hn, put_receiver, h]
  · rw [hn, pop_receiver, h]
  · exact absurd hd' hd

theorem history_next (s : Socket) (e : Event) {q : ℕ} (hq : q < s.nextQueue) :
    (s.queues q).history ⊆ ((s.next e).queues q).history := by
  rcases s.next_queue e hq with hn | ⟨_, _, _, hn⟩ | ⟨_, _, hn⟩ | ⟨_, hn⟩ <;> rw [hn] <;> simp

/-- The entries of the map after a step: only `insert` and `connect` write one. -/
theorem next_lookup (s : Socket) (e : Event) (addr : SocketAddr) :
    (s.next e).connections.lookup addr = match e with
      | .insert remote q _ => if addr = remote then some q else s.connections.lookup addr
      | .connect remote => if addr = remote then some s.nextQueue else s.connections.lookup addr
      | _ => s.connections.lookup addr := by
  cases e with
  | datagram bytes remote =>
    simp only [next, lookup]
    split <;> rfl
  | insert remote q b => exact HashMap.lookup_insert_if _ _ _ _
  | connect remote => exact HashMap.lookup_insert_if _ _ _ _
  | _ => rfl

theorem lookup_of_next {addr : SocketAddr} {q : ℕ}
    (h : (s.next e).connections.lookup addr = some q) :
    (s.connections.lookup addr = some q ∧ e ≠ .connect addr ∧ ∀ p b, e ≠ .insert addr p b) ∨
      (∃ b, e = .insert addr q b) ∨ e = .connect addr ∧ q = s.nextQueue := by
  rw [next_lookup] at h
  cases e with
  | insert remote p b =>
    by_cases ha : addr = remote
    · subst ha
      obtain rfl : p = q := by simpa using h
      exact .inr (.inl ⟨b, rfl⟩)
    · exact .inl ⟨by simpa [ha] using h, by simp, by grind⟩
  | connect remote =>
    by_cases ha : addr = remote
    · subst ha
      obtain rfl : s.nextQueue = q := by simpa using h
      exact .inr (.inr ⟨rfl, rfl⟩)
    · exact .inl ⟨by simpa [ha] using h, by grind, by simp⟩
  | _ => exact .inl ⟨h, by simp, by simp⟩

/-- An entry stays until another connection of the address is put in its place. -/
theorem lookup_next {addr : SocketAddr} {q : ℕ} (h : s.connections.lookup addr = some q)
    (hins : ∀ p b, e = .insert addr p b → p = q) (hcon : e ≠ .connect addr) :
    (s.next e).connections.lookup addr = some q := by
  rw [next_lookup]
  cases e with
  | insert remote p b =>
    by_cases ha : addr = remote
    · subst ha
      have hp := hins p b rfl
      simp [hp]
    · simpa [ha] using h
  | connect remote =>
    have ha : addr ≠ remote := fun ha => hcon (by rw [ha])
    simpa [ha] using h
  | _ => exact h

theorem connect_fresh (s : Socket) (addr : SocketAddr) :
    (s.next (.connect addr)).nextQueue = s.nextQueue + 1 ∧
      (s.next (.connect addr)).queues s.nextQueue = .new addr .connect s.received.length :=
  ⟨rfl, by simp [Socket.next, connect, channel, updateQueue]⟩

theorem datagram_fresh (bytes : Bytes) {remote : SocketAddr}
    (hl : s.connections.lookup remote = none) :
    (s.next (.datagram bytes remote)).nextQueue = s.nextQueue + 1 ∧
      (s.next (.datagram bytes remote)).queues s.nextQueue =
        .new remote .datagram s.received.length := by
  simp [Socket.next, lookup, hl, channel, updateQueue]

theorem next_received (s : Socket) (e : Event) :
    (s.next e).received = match e with
      | .datagram bytes remote => s.received ++ [⟨s.received.length, remote, bytes⟩]
      | _ => s.received := by
  cases e with
  | datagram bytes remote =>
    simp only [Socket.next, lookup]
    split <;> rfl
  | _ => rfl

theorem next_target (he : s.enabled e) {addr : SocketAddr} {q : ℕ}
    (h : (s.next e).readTask.target = some (addr, q)) :
    (s.readTask.target = some (addr, q) ∧ ∀ remote p b, e ≠ .insert remote p b) ∨
    ∃ bytes, e = .datagram bytes addr ∧ (s.connections.lookup addr = some q ∨
      (s.connections.lookup addr = none ∧ q = s.nextQueue)) := by
  cases e with
  | datagram bytes remote =>
    simp only [next, lookup] at h
    cases hl : s.connections.lookup remote with
    | some p =>
      obtain ⟨rfl, rfl⟩ : remote = addr ∧ p = q := by simpa [hl, ReadTask.target] using h
      exact .inr ⟨bytes, rfl, .inl hl⟩
    | none =>
      obtain ⟨rfl, rfl⟩ : remote = addr ∧ s.nextQueue = q := by
        simpa [hl, ReadTask.target] using h
      exact .inr ⟨bytes, rfl, .inr ⟨hl, rfl⟩⟩
  | send d p b => exact .inl ⟨by rw [he.1]; exact h, by simp⟩
  | insert remote p b => cases b <;> simp [next, ReadTask.target] at h
  | sendClosed | offer | offerClosed | recvError | closed => simp [next, ReadTask.target] at h
  | close | connect | take | read | drop | dropAcceptor => exact .inl ⟨h, by simp⟩

/-- The read task keeps the connection it made until it hands it on. -/
theorem next_holds (he : s.enabled e) {q : ℕ} (h : (s.next e).readTask.holds = some q) :
    (s.readTask.holds = some q ∧ e ≠ .offer q ∧ e ≠ .offerClosed q) ∨
    ∃ bytes remote, e = .datagram bytes remote ∧ s.connections.lookup remote = none ∧
      q = s.nextQueue := by
  cases e with
  | datagram bytes remote =>
    simp only [next, lookup] at h
    cases hl : s.connections.lookup remote with
    | some p => simp [hl, ReadTask.holds] at h
    | none =>
      obtain rfl : s.nextQueue = q := by simpa [hl, ReadTask.holds] using h
      exact .inr ⟨bytes, remote, rfl, hl, rfl⟩
  | send d p b =>
    cases b with
    | false => simp [next, ReadTask.holds] at h
    | true => exact .inl ⟨by rw [he.1]; exact h, by simp⟩
  | insert remote p b =>
    cases b with
    | false => simp [next, ReadTask.holds] at h
    | true => exact .inl ⟨by rw [he]; exact h, by simp⟩
  | sendClosed | offer | offerClosed | recvError | closed => simp [next, ReadTask.holds] at h
  | close | connect | take | read | drop | dropAcceptor => exact .inl ⟨h, by simp⟩

theorem next_incoming (he : s.enabled e) : (s.next e).incoming.items = match e with
    | .offer q => s.incoming.items ++ [q]
    | .take _ => s.incoming.items.tail
    | .dropAcceptor => []
    | _ => s.incoming.items := by
  cases e with
  | datagram bytes remote =>
    simp only [next, lookup]
    split <;> rfl
  | offer q => exact BoundedQueue.push_items he.2.2 q
  | take q => exact BoundedQueue.pop_items s.incoming
  | _ => rfl

theorem incoming_of_next (he : s.enabled e) {q : ℕ} (h : q ∈ (s.next e).incoming.items) :
    q ∈ s.incoming.items ∨ e = .offer q := by
  rw [next_incoming he] at h
  cases e with
  | offer p =>
    rcases List.mem_append.mp h with hold | hlast
    · exact .inl hold
    · exact .inr (by rw [List.mem_singleton.mp hlast])
  | take p => exact .inl (List.mem_of_mem_tail h)
  | dropAcceptor => simp at h
  | _ => exact .inl h

theorem next_acceptor (s : Socket) (e : Event) :
    (s.next e).acceptor = if e = .dropAcceptor then false else s.acceptor := by
  cases e with
  | datagram bytes remote =>
    simp only [next, lookup]
    split <;> rfl
  | _ => rfl

theorem held_of_next (he : s.enabled e) {q : ℕ} (h : (s.next e).held q) :
    s.held q ∨ q = s.nextQueue ∧
      ∃ remote, (s.next e).queues q = .new remote .datagram s.received.length := by
  cases h with
  | inl h =>
    rcases next_holds he h with ⟨hq, _⟩ | ⟨bytes, remote, rfl, hl, rfl⟩
    · exact .inl (.inl hq)
    · exact .inr ⟨rfl, remote, (datagram_fresh bytes hl).2⟩
  | inr h =>
    left
    rcases incoming_of_next he h with hold | rfl
    · exact .inr hold
    · left
      rw [he.1]
      rfl

end Socket

end Uip.Io
