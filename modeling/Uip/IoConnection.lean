import Uip.TransportAccept

/-!
# Reading a connection

The three ways to read a datagram from the queue of a connection: `poll_read` fills a `ReadBuf`,
`recv` and `recv_from` a slice. A reader of the connection polls it between the steps of the
demultiplexer.
-/
namespace Uip.Io
open TransitionSystem

structure ReadBuf where
  capacity : ℕ
  filled : Bytes
  fits : filled.length ≤ capacity
  deriving DecidableEq

namespace ReadBuf

def new (capacity : ℕ) : ReadBuf := ⟨capacity, [], Nat.zero_le _⟩

def remaining (buf : ReadBuf) : ℕ := buf.capacity - buf.filled.length

def clear (buf : ReadBuf) : ReadBuf := ⟨buf.capacity, [], Nat.zero_le _⟩

theorem fits_append {buf : ReadBuf} {bytes : Bytes} (h : bytes.length ≤ buf.remaining) :
    (buf.filled ++ bytes).length ≤ buf.capacity := by
  have hfits := buf.fits
  rw [remaining] at h
  rw [List.length_append]
  omega

/-- `none` stands for a panic. -/
def putSlice (buf : ReadBuf) (bytes : Bytes) : Option ReadBuf :=
  if h : bytes.length ≤ buf.remaining then
    some ⟨buf.capacity, buf.filled ++ bytes, fits_append h⟩
  else none

end ReadBuf

inductive Received
  | item (bytes : Bytes)
  | closed
  | pending
  deriving DecidableEq

inductive PollRead
  | ready (buf : ReadBuf)
  | pending
  | panic
  deriving DecidableEq

/-- `locked`: another reader of the connection has the receiver. -/
def pollRead (locked : Bool) (received : Received) (buf : ReadBuf) : PollRead :=
  if locked then .pending
  else
    match received with
    | .item b =>
      match buf.clear.putSlice b with
      | some buf => .ready buf
      | none => .panic
    | .closed => .ready buf
    | .pending => .pending

/-- The bytes that are left and the slice that is filled; `none` stands for a panic. -/
def copyToSlice (bytes slice : Bytes) : Option (Bytes × Bytes) :=
  if slice.length ≤ bytes.length then some (bytes.drop slice.length, bytes.take slice.length)
  else none

/-- The result with the slice, `Err(ErrClosedListener)`, or a wait. -/
inductive Recv (α : Type)
  | ok (result : α) (slice : Bytes)
  | errClosedListener
  | pending
  | panic
  deriving DecidableEq

def recv (received : Received) (buf : Bytes) : Recv ℕ :=
  match received with
  | .item bytes =>
    match copyToSlice bytes buf with
    | some (bytes, buf) => .ok bytes.length buf
    | none => .panic
  | .closed => .errClosedListener
  | .pending => .pending

def recvFrom (remoteAddr : SocketAddr) (received : Received) (buf : Bytes) :
    Recv (ℕ × SocketAddr) :=
  match received with
  | .item bytes =>
    match copyToSlice bytes buf with
    | some (bytes, buf) => .ok (bytes.length, remoteAddr) buf
    | none => .panic
  | .closed => .errClosedListener
  | .pending => .pending

section Safe
variable (b : Bytes)

/-- `poll_read` appends as much of the datagram as there is room for. -/
def PollReadSafe (buf : ReadBuf) : Prop :=
  ∃ buf', pollRead false (.item b) buf = .ready buf' ∧ buf'.capacity = buf.capacity ∧
    buf'.filled = buf.filled ++ b.take buf.remaining

/-- `recv` copies as much of the datagram as there is room for and returns the count. -/
def RecvSafe (slice : Bytes) : Prop :=
  recv (.item b) slice =
    .ok (min b.length slice.length) (b.take slice.length ++ slice.drop b.length)

def RecvFromSafe (remoteAddr : SocketAddr) (slice : Bytes) : Prop :=
  recvFrom remoteAddr (.item b) slice =
    .ok (min b.length slice.length, remoteAddr) (b.take slice.length ++ slice.drop b.length)

variable {b}

theorem pollRead_item (buf : ReadBuf) : pollRead false (.item b) buf =
    if h : b.length ≤ buf.capacity then .ready ⟨buf.capacity, b, h⟩ else .panic := by
  by_cases h : b.length ≤ buf.capacity
  · have hput : buf.clear.putSlice b = some ⟨buf.capacity, b, h⟩ := dif_pos h
    simp [pollRead, hput, h]
  · have hput : buf.clear.putSlice b = none := dif_neg h
    simp [pollRead, hput, h]

theorem pollReadSafe_iff {buf : ReadBuf} : PollReadSafe b buf ↔ b.length ≤ buf.capacity ∧
    (buf.filled = [] ∨ b.length = buf.capacity ∧ b = buf.filled ++ b.take buf.remaining) := by
  have hfits := buf.fits
  rw [PollReadSafe, pollRead_item]
  by_cases h : b.length ≤ buf.capacity
  · simp only [h, dif_pos, PollRead.ready.injEq, exists_eq_left', true_and]
    constructor
    · intro heq
      by_cases hf : buf.filled = []
      · exact .inl hf
      · have hlen := congrArg List.length heq
        have hpos := List.length_pos_iff.mpr hf
        rw [List.length_append, List.length_take, ReadBuf.remaining] at hlen
        exact .inr ⟨by omega, heq⟩
    · rintro (hf | ⟨_, heq⟩)
      · rw [hf, List.nil_append, ReadBuf.remaining, hf]
        exact (List.take_of_length_le h).symm
      · exact heq
  · simp [h]

theorem copyToSlice_eq (slice : Bytes) (h : slice.length ≤ b.length) :
    copyToSlice b slice = some (b.drop slice.length, b.take slice.length) := if_pos h

theorem recvSafe_iff {slice : Bytes} : RecvSafe b slice ↔ b.length = 2 * slice.length := by
  by_cases h : slice.length ≤ b.length
  · rw [RecvSafe, recv, copyToSlice_eq slice h]
    simp only [List.length_drop, List.drop_eq_nil_of_le h, List.append_nil, Recv.ok.injEq,
      and_true]
    omega
  · have hnone : copyToSlice b slice = none := if_neg h
    simp only [RecvSafe, recv, hnone, reduceCtorEq, false_iff]
    omega

theorem recvFromSafe_iff {remoteAddr : SocketAddr} {slice : Bytes} :
    RecvFromSafe b remoteAddr slice ↔ b.length = 2 * slice.length := by
  by_cases h : slice.length ≤ b.length
  · rw [RecvFromSafe, recvFrom, copyToSlice_eq slice h]
    simp only [List.length_drop, List.drop_eq_nil_of_le h, List.append_nil, Recv.ok.injEq,
      Prod.mk.injEq, and_true]
    omega
  · have hnone : copyToSlice b slice = none := if_neg h
    simp only [RecvFromSafe, recvFrom, hnone, reduceCtorEq, false_iff]
    omega

end Safe

/-- What makes each of the three ways to read a datagram safe. -/
theorem reads_safe_iff (b : Bytes) (buf : ReadBuf) (slice : Bytes) (remoteAddr : SocketAddr) :
    (PollReadSafe b buf ↔ b.length ≤ buf.capacity ∧
      (buf.filled = [] ∨ b.length = buf.capacity ∧ b = buf.filled ++ b.take buf.remaining)) ∧
    (RecvSafe b slice ↔ b.length = 2 * slice.length) ∧
    (RecvFromSafe b remoteAddr slice ↔ b.length = 2 * slice.length) :=
  ⟨pollReadSafe_iff, recvSafe_iff, recvFromSafe_iff⟩

/-- Five bytes for a buffer of four, and two for a slice of four. -/
theorem reads_unsafe : ¬ PollReadSafe [1, 2, 3, 4, 5] (.new 4) ∧
    ¬ RecvSafe [1, 2] [0, 0, 0, 0] ∧ ¬ RecvFromSafe [1, 2] (.v4 1 1) [0, 0, 0, 0] := by
  refine ⟨?_, ?_, ?_⟩
  · rintro ⟨buf, h, _⟩
    have hpanic : pollRead false (.item [1, 2, 3, 4, 5]) (.new 4) = .panic := by decide
    rw [hpanic] at h
    cases h
  · rw [RecvSafe]
    decide
  · rw [RecvFromSafe]
    decide

/-- The demultiplexer with the readers of its connections; `dropped` tells that the last handle of
the socket is gone. -/
structure Readers where
  io : Socket
  dropped : Bool

inductive ReadersEvent
  | io (e : Event)
  | pollRead (connection : ℕ) (locked : Bool) (buf : ReadBuf)
  | dropSocket
  deriving DecidableEq

namespace Readers

def ofSocket : Event → Bool
  | .close | .connect _ | .read .. => true
  | e => e.ofReadTask

def senderAlive (s : Readers) (q : ℕ) : Prop := s.dropped = false ∧ Transport.senderAlive s.io q

instance (s : Readers) (q : ℕ) : Decidable (s.senderAlive q) :=
  inferInstanceAs (Decidable (_ ∧ _))

def received (s : Readers) (q : ℕ) : Received :=
  match (s.io.queues q).datagrams.items with
  | d :: _ => .item d.bytes
  | [] => if s.senderAlive q then .pending else .closed

def isRead : Event → Bool
  | .read .. => true
  | _ => false

def enabled (s : Readers) : ReadersEvent → Prop
  | .io e => s.io.enabled e ∧ isRead e = false ∧ (s.dropped = true → ofSocket e = false)
  | .pollRead q _ _ => q < s.io.nextQueue ∧ (s.io.queues q).receiver = true ∧ ¬ s.io.held q
  | .dropSocket => s.io.readTask = .ended

instance (s : Readers) (e : ReadersEvent) : Decidable (s.enabled e) := by
  cases e <;> dsimp only [enabled] <;> infer_instance

def next (s : Readers) : ReadersEvent → Readers
  | .io e => { s with io := s.io.next e }
  | .pollRead q locked _ =>
    if locked then s else { s with io := s.io.updateQueue q (s.io.queues q).pop }
  | .dropSocket => { s with dropped := true }

/-- `poll_read` reports the end of the stream: it is ready and has filled nothing. -/
def ReportsEnd (s : Readers) (q : ℕ) (locked : Bool) (buf : ReadBuf) : Prop :=
  ∃ buf', pollRead locked (s.received q) buf = .ready buf' ∧
    buf'.filled.length = buf.filled.length

/-- A read with free space reports the end only of a stream that has ended. -/
def EndsProperly (s : Readers) (e : ReadersEvent) : Prop :=
  ∀ q locked buf, e = .pollRead q locked buf → 0 < buf.remaining → s.ReportsEnd q locked buf →
    ¬ s.senderAlive q ∧ (s.io.queues q).datagrams.items = []

/-- The read takes no datagram of as many bytes as are filled already. -/
def ReadsOthers (s : Readers) (e : ReadersEvent) : Prop :=
  ∀ q buf, e = .pollRead q false buf → 0 < buf.remaining →
    ∀ d ∈ (s.io.queues q).datagrams.items.head?, d.bytes.length ≠ buf.filled.length

theorem endsProperly_iff (s : Readers) (e : ReadersEvent) : s.EndsProperly e ↔ s.ReadsOthers e := by
  constructor
  · intro h q buf heq hroom d hd hlen
    obtain ⟨rest, hitems⟩ := List.head?_eq_some_iff.mp hd
    have hfits : d.bytes.length ≤ buf.capacity := hlen ▸ buf.fits
    have hends : s.ReportsEnd q false buf := by
      refine ⟨⟨buf.capacity, d.bytes, hfits⟩, ?_, hlen⟩
      rw [received, hitems, pollRead_item, dif_pos hfits]
    have hempty := (h q false buf heq hroom hends).2
    simp [hitems] at hempty
  · rintro h q locked buf rfl hroom ⟨buf', hready, hlen⟩
    cases locked with
    | true => simp [pollRead] at hready
    | false =>
      cases hitems : (s.io.queues q).datagrams.items with
      | nil =>
        refine ⟨fun halive => ?_, rfl⟩
        simp [received, hitems, halive, pollRead] at hready
      | cons d rest =>
        rw [received, hitems, pollRead_item] at hready
        split_ifs at hready
        obtain rfl := PollRead.ready.inj hready
        exact absurd hlen (h q buf rfl hroom d (by simp [hitems]))

end Readers

def readersMachine : Machine Readers ReadersEvent :=
  guarded (· = ⟨.bind, false⟩) Readers.enabled Readers.next

namespace Socket

variable {s : Socket} {e : Event}

/-- A queue gains a datagram only when the read task sends it there. -/
theorem items_of_next (he : s.enabled e) {q : ℕ} (hq : q < (s.next e).nextQueue) {d : Datagram}
    (h : d ∈ ((s.next e).queues q).datagrams.items) :
    q < s.nextQueue ∧ (d ∈ (s.queues q).datagrams.items ∨ ∃ b, e = .send d q b) := by
  by_cases hold : q < s.nextQueue
  · refine ⟨hold, ?_⟩
    rcases s.next_queue e hold with hn | ⟨d', b, rfl, hn⟩ | ⟨d', rfl, hn⟩ | ⟨_, hn⟩ <;> rw [hn] at h
    · exact .inl h
    · rw [put_items _ _ he.2.2] at h
      rcases List.mem_append.mp h with h | h
      · exact .inl h
      · obtain rfl := List.mem_singleton.mp h
        exact .inr ⟨b, rfl⟩
    · rw [pop_items] at h
      exact .inl (List.mem_of_mem_tail h)
    · cases h
  · exfalso
    rcases s.next_fresh e with ⟨hn, _⟩ | ⟨hn, ⟨_, _, _, _, hnew⟩ | ⟨_, _, hnew⟩⟩
    · omega
    · obtain rfl : q = s.nextQueue := by omega
      rw [hnew] at h
      cases h
    · obtain rfl : q = s.nextQueue := by omega
      rw [hnew] at h
      cases h

theorem updateQueue_pop_nil {q : ℕ} (h : (s.queues q).datagrams.items = []) :
    s.updateQueue q (s.queues q).pop = s := by
  have hpop : (s.queues q).pop = s.queues q := by
    rw [DatagramQueue.pop, BoundedQueue.pop_eq_none.mpr h]
    rfl
  rw [updateQueue, hpop, Function.update_eq_self]

/-- No empty datagram is queued or being sent. -/
structure NonEmpty (s : Socket) : Prop where
  queued : ∀ q < s.nextQueue, ∀ d ∈ (s.queues q).datagrams.items, d.bytes ≠ []
  sending : ∀ d q b, s.readTask = .sending d q b → d.bytes ≠ []

theorem NonEmpty.bind : Socket.bind.NonEmpty where
  queued q hq := absurd hq (Nat.not_lt_zero q)
  sending := by simp [Socket.bind]

theorem NonEmpty.next (h : s.NonEmpty) (he : s.enabled e)
    (hg : ∀ bytes remote, e = .datagram bytes remote → bytes ≠ []) : (s.next e).NonEmpty := by
  refine ⟨fun q hq d hd => ?_, fun d q b hs => ?_⟩
  · rcases items_of_next he hq hd with ⟨hold, hd | ⟨b, rfl⟩⟩
    · exact h.queued q hold d hd
    · exact h.sending d q b he.1
  · cases e with
    | datagram bytes remote =>
      obtain ⟨p, b', hread, _⟩ := s.lookup_readTask bytes remote
      obtain ⟨rfl, _⟩ := ReadTask.sending.inj (hread.symm.trans hs)
      exact hg bytes remote rfl
    | insert remote p b' => cases b' <;> cases hs
    | send | sendClosed | offer | offerClosed | recvError | closed => cases hs
    | close | connect | take | read | drop | dropAcceptor => exact h.sending d q b hs

theorem NonEmpty.pop (h : s.NonEmpty) (q : ℕ) :
    (s.updateQueue q (s.queues q).pop).NonEmpty := by
  refine ⟨fun p hp d hd => ?_, h.sending⟩
  by_cases hpq : p = q
  · subst hpq
    have hmem : d ∈ (s.queues p).datagrams.items := by
      apply List.mem_of_mem_tail
      simpa [updateQueue, pop_items] using hd
    exact h.queued p hp d hmem
  · exact h.queued p hp d (by simpa [updateQueue, hpq] using hd)

end Socket

/-- What readers do is what the demultiplexer's model lets the owners of connections do. -/
theorem readers_refine : Refines readersMachine machine Readers.io := by
  refine ⟨fun s hs => by rw [hs]; rfl, fun s e t hst => ?_⟩
  obtain ⟨he, rfl⟩ := guarded_step.mp hst
  cases e with
  | io e => exact ⟨[e], exec_step (guarded_step.mpr ⟨he.1, rfl⟩) []⟩
  | dropSocket => exact ⟨[], rfl⟩
  | pollRead q locked buf =>
    cases locked with
    | true => exact ⟨[], rfl⟩
    | false =>
      cases hitems : (s.io.queues q).datagrams.items with
      | nil => exact ⟨[], congrArg some (Socket.updateQueue_pop_nil hitems).symm⟩
      | cons d rest =>
        have hread : s.io.enabled (.read q d) := ⟨he.1, he.2.1, he.2.2, by simp [hitems]⟩
        exact ⟨[.read q d], exec_step (guarded_step.mpr ⟨hread, rfl⟩) []⟩

namespace Readers

/-- The datagram that arrives in this step, if any, is not empty. -/
def NotEmptyArrival (e : ReadersEvent) : Prop :=
  ∀ bytes remote, e = .io (.datagram bytes remote) → bytes ≠ []

theorem nonEmpty_next {s : Readers} {e : ReadersEvent} (h : s.io.NonEmpty) (he : s.enabled e)
    (hg : NotEmptyArrival e) : (s.next e).io.NonEmpty := by
  cases e with
  | io e => exact h.next he.1 fun bytes remote heq => hg bytes remote (by rw [heq])
  | pollRead q locked buf =>
    cases locked with
    | true => exact h
    | false => exact h.pop q
  | dropSocket => exact h

theorem readsOthers_unfilled {s : Readers} (h : s.io.NonEmpty) {e : ReadersEvent}
    (he : s.enabled e) (hnew : ∀ q locked buf, e = .pollRead q locked buf → buf.filled = []) :
    s.ReadsOthers e := by
  rintro q buf rfl _ d hd
  rw [hnew q false buf rfl]
  exact fun hlen => h.queued q he.1 d (List.mem_of_mem_head? hd) (List.length_eq_zero_iff.mp hlen)

end Readers

/-- Reads report the end of live streams exactly where they take a datagram as long as what is
filled already; unfilled buffers do not where no empty datagram arrives. -/
theorem end_of_stream_iff (r : Run readersMachine) :
    ((∀ x ∈ r.transitions, x.source.EndsProperly x.label) ↔
      ∀ x ∈ r.transitions, x.source.ReadsOthers x.label) ∧
    ((∀ x ∈ r.transitions, Readers.NotEmptyArrival x.label ∧
      ∀ q locked buf, x.label = .pollRead q locked buf → buf.filled = []) →
        ∀ x ∈ r.transitions, x.source.EndsProperly x.label) := by
  refine ⟨forall₂_congr fun x _ => x.source.endsProperly_iff x.label, fun h x hx => ?_⟩
  obtain ⟨s, trace, t, rfl, path⟩ := r
  have hinv := path.guarded_invariant (P := fun s => s.io.NonEmpty)
    (G := fun _ e => Readers.NotEmptyArrival e) (fun _ _ hs hg he => Readers.nonEmpty_next hs he hg)
    .bind fun y hy => (h y hy).1
  obtain ⟨he, _⟩ := guarded_step.mp (path.step_of_mem hx)
  exact (Readers.endsProperly_iff _ _).mpr
    (Readers.readsOthers_unfilled (hinv.2 x hx).1 he (h x hx).2)

/-- An accepted connection is read, and then an empty datagram of its remote. -/
def emptyDatagramEvents : List ReadersEvent :=
  [.io (.datagram [22] (.v4 1 1)), .io (.send ⟨0, .v4 1 1, [22]⟩ 0 true),
    .io (.insert (.v4 1 1) 0 true), .io (.offer 0), .io (.take 0), .pollRead 0 false (.new 8),
    .io (.datagram [] (.v4 1 1)), .io (.send ⟨1, .v4 1 1, []⟩ 0 false),
    .io (.insert (.v4 1 1) 0 false)]

theorem empty_datagram_ends : ∃ s, Reachable readersMachine s ∧ s.senderAlive 0 ∧
    s.enabled (.pollRead 0 false (.new 8)) ∧ ¬ s.EndsProperly (.pollRead 0 false (.new 8)) := by
  obtain ⟨s, hs, hp⟩ := exec_reachable (M := readersMachine) rfl emptyDatagramEvents
    (p := fun s => decide (s.senderAlive 0 ∧ s.enabled (.pollRead 0 false (.new 8)) ∧
      pollRead false (s.received 0) (.new 8) = .ready (.new 8))) (by decide +kernel)
  obtain ⟨halive, he, hready⟩ := of_decide_eq_true hp
  refine ⟨s, hs, halive, he, fun h => ?_⟩
  exact (h 0 false (.new 8) rfl (by decide) ⟨.new 8, hready, rfl⟩).1 halive

end Uip.Io
