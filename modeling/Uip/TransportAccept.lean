import Uip.IoSocketInvariant

/-!
# The accept task

The accept task of a transport socket takes up one new connection after another and awaits the
whole handshake of each before it looks for the next. Every other use of the demultiplexer is
made by tasks that may run between any two of its steps.
-/
namespace Uip.Transport
open TransitionSystem

/-- `handshake` is a handshake that can go on, `awaiting` one that needs a datagram. -/
inductive AcceptTask
  | receiving
  | handshake (connection : ℕ)
  | awaiting (connection : ℕ)
  | registering (connection : ℕ)
  | ended
  deriving DecidableEq

structure Acceptor where
  io : Io.Socket
  task : AcceptTask

inductive AcceptEvent
  | io (e : Io.Event)
  | take (connection : ℕ)
  | await (connection : ℕ)
  | read (connection : ℕ) (datagram : Io.Datagram)
  | eof (connection : ℕ)
  | abandon (connection : ℕ)
  | finish (connection : ℕ)
  | register (connection : ℕ)
  | ended
  deriving DecidableEq

def AcceptTask.owns : AcceptTask → Option ℕ
  | .handshake q | .awaiting q => some q
  | _ => none

/-- A sender of the queue is left, in the map or with the read task. -/
def senderAlive (s : Io.Socket) (q : ℕ) : Prop :=
  s.connections.lookup (s.queues q).remote = some q ∨
    s.readTask.target.map Prod.snd = some q

instance (s : Io.Socket) (q : ℕ) : Decidable (senderAlive s q) :=
  inferInstanceAs (Decidable (_ ∨ _))

namespace Acceptor

def new : Acceptor := ⟨.bind, .receiving⟩

/-- The steps of the demultiplexer that are not the accept task's own. -/
def foreign (s : Acceptor) : Io.Event → Prop
  | .take _ | .dropAcceptor => False
  | .read q _ | .drop q => s.task.owns ≠ some q
  | _ => True

instance (s : Acceptor) : (e : Io.Event) → Decidable (s.foreign e)
  | .take _ | .dropAcceptor => inferInstanceAs (Decidable False)
  | .read q _ | .drop q => inferInstanceAs (Decidable (¬ s.task.owns = some q))
  | .datagram .. | .send .. | .sendClosed .. | .insert .. | .offer _ | .offerClosed _
  | .recvError | .closed | .close | .connect _ => inferInstanceAs (Decidable True)

def enabled (s : Acceptor) : AcceptEvent → Prop
  | .io e => s.foreign e ∧ s.io.enabled e
  | .take q => s.task = .receiving ∧ s.io.enabled (.take q)
  | .await q => s.task = .handshake q
  | .read q d => s.task = .awaiting q ∧ s.io.enabled (.read q d)
  | .eof q => s.task = .awaiting q ∧ (s.io.queues q).datagrams.items = [] ∧
      ¬ senderAlive s.io q
  | .abandon q => s.task = .handshake q ∧ s.io.enabled (.drop q)
  | .finish q => s.task = .handshake q
  | .register q => s.task = .registering q
  | .ended => s.task = .receiving ∧ s.io.readTask = .ended ∧ s.io.incoming.items = [] ∧
      s.io.enabled .dropAcceptor

instance (s : Acceptor) (e : AcceptEvent) : Decidable (s.enabled e) := by
  cases e <;> dsimp only [enabled] <;> infer_instance

def next (s : Acceptor) : AcceptEvent → Acceptor
  | .io e => { s with io := s.io.next e }
  | .take q => ⟨s.io.next (.take q), .handshake q⟩
  | .await q => { s with task := .awaiting q }
  | .read q d => ⟨s.io.next (.read q d), .handshake q⟩
  | .eof q => { s with task := .handshake q }
  | .abandon q => ⟨s.io.next (.drop q), .receiving⟩
  | .finish q => { s with task := .registering q }
  | .register _ => { s with task := .receiving }
  | .ended => ⟨s.io.next .dropAcceptor, .ended⟩

end Acceptor

def acceptMachine : Machine Acceptor AcceptEvent :=
  guarded (· = Acceptor.new) Acceptor.enabled Acceptor.next

def AcceptEvent.onIo : AcceptEvent → Option Io.Event
  | .io e => some e
  | .take q => some (.take q)
  | .read q d => some (.read q d)
  | .abandon q => some (.drop q)
  | .ended => some .dropAcceptor
  | _ => none

namespace Acceptor

variable {s : Acceptor} {e : AcceptEvent}

theorem next_io (s : Acceptor) (e : AcceptEvent) :
    (s.next e).io = e.onIo.elim s.io s.io.next := by
  cases e <;> rfl

theorem enabled_io (he : s.enabled e) {i : Io.Event} (hi : e.onIo = some i) : s.io.enabled i := by
  cases e <;> simp only [AcceptEvent.onIo, Option.some.injEq, reduceCtorEq] at hi <;> subst hi
  · exact he.2
  · exact he.2
  · exact he.2
  · exact he.2
  · exact he.2.2.2

theorem io_next {P : Io.Socket → Prop} (h : P s.io)
    (hstep : ∀ i, e.onIo = some i → P (s.io.next i)) : P (s.next e).io := by
  rw [next_io]
  cases hi : e.onIo with
  | none => exact h
  | some i => exact hstep i hi

theorem next_task (he : s.enabled e) {q : ℕ} (h : (s.next e).task.owns = some q) :
    s.task.owns = some q ∧ e ≠ .abandon q ∨ e = .take q := by
  cases e with
  | io i => exact .inl ⟨h, by simp⟩
  | take p =>
    obtain rfl : p = q := by simpa [next, AcceptTask.owns] using h
    exact .inr rfl
  | await p | read p d | eof p =>
    have hp : s.task.owns = some p := by
      first
        | rw [he]; rfl
        | rw [he.1]; rfl
    obtain rfl : p = q := by simpa [next, AcceptTask.owns] using h
    exact .inl ⟨hp, by simp⟩
  | abandon | finish | register | ended => simp [next, AcceptTask.owns] at h

/-- The accept task is the owner of the connection it handshakes on, and the new-connection
channel stays open while it runs. -/
structure Owner (s : Acceptor) : Prop where
  wellFormed : s.io.WellFormed
  handover : s.io.Handover
  owned : ∀ q, s.task.owns = some q → s.io.Owned q
  origin : ∀ q, s.task.owns = some q → (s.io.queues q).origin = .datagram
  acceptor : s.io.acceptor = true ↔ s.task ≠ .ended

theorem Owner.new : new.Owner where
  wellFormed := .bind
  handover := .bind
  owned := by simp [Acceptor.new, AcceptTask.owns]
  origin := by simp [Acceptor.new, AcceptTask.owns]
  acceptor := by simp [Acceptor.new, Io.Socket.bind]

theorem Owner.next (h : s.Owner) (he : s.enabled e) : (s.next e).Owner := by
  refine ⟨?_, ?_, fun q hq => ?_, fun q hq => ?_, ?_⟩
  · exact io_next h.wellFormed fun i hi => h.wellFormed.next (enabled_io he hi)
  · exact io_next h.handover fun i hi => h.handover.next (enabled_io he hi)
  · rcases next_task he hq with ⟨hold, hne⟩ | rfl
    · apply io_next (P := fun io => io.Owned q) (h.owned q hold)
      intro i hi
      apply (h.owned q hold).next (enabled_io he hi)
      rintro rfl
      cases e <;> simp only [AcceptEvent.onIo, Option.some.injEq, reduceCtorEq] at hi
      · subst hi
        exact he.1 hold
      · exact hne (by rw [Io.Event.drop.inj hi])
    · exact h.handover.owned_take he.2
  · rcases next_task he hq with ⟨hold, _⟩ | rfl
    · apply io_next (P := fun io => (io.queues q).origin = .datagram) (h.origin q hold)
      intro i _
      rw [s.io.next_origin i (h.owned q hold).lt]
      exact h.origin q hold
    · have hheld : s.io.held q := .inr (List.mem_of_mem_head? he.2.2)
      exact (s.io.next_origin (.take q) (h.handover.lt hheld)).trans (h.handover.origin q hheld)
  · cases e with
    | io i =>
      have hi : i ≠ .dropAcceptor := by
        rintro rfl
        exact he.1
      simpa [Acceptor.next, Io.Socket.next_acceptor, hi] using h.acceptor
    | take q => simpa [Acceptor.next, Io.Socket.next_acceptor, he.1] using h.acceptor
    | await q => simpa [Acceptor.next, show s.task = _ from he] using h.acceptor
    | read q d => simpa [Acceptor.next, Io.Socket.next_acceptor, he.1] using h.acceptor
    | eof q => simpa [Acceptor.next, he.1] using h.acceptor
    | abandon q => simpa [Acceptor.next, Io.Socket.next_acceptor, he.1] using h.acceptor
    | finish q => simpa [Acceptor.next, show s.task = _ from he] using h.acceptor
    | register q => simpa [Acceptor.next, show s.task = _ from he] using h.acceptor
    | ended => simp [Acceptor.next, Io.Socket.next_acceptor]

theorem Owner.of_reachable (h : Reachable acceptMachine s) : s.Owner :=
  h.guarded_induct (fun _ hs => hs ▸ .new) fun _ _ hs he => hs.next he

theorem Owner.read_enabled (h : s.Owner) {q : ℕ} (hq : s.task = .awaiting q) {d : Io.Datagram}
    (hd : (s.io.queues q).datagrams.items.head? = some d) : s.enabled (.read q d) := by
  have howned := h.owned q (by rw [hq]; rfl)
  exact ⟨hq, howned.lt, howned.receiver, howned.handed, hd⟩

end Acceptor

/-- The accept task uses the demultiplexer as one of the tasks that its model allows. -/
theorem acceptMachine_refines : Refines acceptMachine Io.machine Acceptor.io := by
  apply Refines.guarded_part AcceptEvent.onIo
  · intro s hs
    rw [show s = Acceptor.new from hs]
    rfl
  · exact Acceptor.next_io
  · exact fun s e he i hi => Acceptor.enabled_io he hi

end Uip.Transport
