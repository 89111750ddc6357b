import Uip.TransitionSystem
import Uip.DataPeers
import Mathlib.Logic.Function.Basic

/-!
# The UDP demultiplexer

One UDP socket serves all remotes: its read task puts each datagram into the queue of the
connection registered for the sender, or makes a new connection. The read task suspends
between the lookup, the send and the re-insertion of a forwarding step, and other tasks may
call `connect`, read a connection or drop it at any of these points.

Queues, and with them the connections that read them, are numbered in the order of their
creation. `Datagram.number`, `DatagramQueue.since`, `DatagramQueue.history` and `Socket.received`
record what happened; no step reads them.
-/
namespace Uip.Io
open TransitionSystem

/-- What made a connection: a call of `connect`, or a datagram of an unknown remote. -/
inductive Origin
  | connect
  | datagram
  deriving DecidableEq

structure Datagram where
  number : ℕ
  source : SocketAddr
  bytes : Bytes
  deriving DecidableEq

/-- The channel of one `Connection`; `receiver` tells whether the connection still exists. -/
structure DatagramQueue where
  remote : SocketAddr
  origin : Origin
  since : ℕ
  datagrams : BoundedQueue Datagram 10
  history : List Datagram
  receiver : Bool

/-- Where the read task stands. The flag says that it holds the connection it just made. -/
inductive ReadTask
  | receiving
  | sending (datagram : Datagram) (destination : ℕ) (connection : Bool)
  | inserting (remote : SocketAddr) (destination : ℕ) (connection : Bool)
  | offering (connection : ℕ)
  | ended
  deriving DecidableEq

structure Socket where
  connections : HashMap SocketAddr ℕ
  queues : ℕ → DatagramQueue
  nextQueue : ℕ
  readTask : ReadTask
  incoming : BoundedQueue ℕ 10
  acceptor : Bool
  closeSent : Bool
  received : List Datagram

inductive Event
  | datagram (bytes : Bytes) (remote : SocketAddr)
  | send (datagram : Datagram) (destination : ℕ) (connection : Bool)
  | sendClosed (datagram : Datagram) (destination : ℕ) (connection : Bool)
  | insert (remote : SocketAddr) (destination : ℕ) (connection : Bool)
  | offer (connection : ℕ)
  | offerClosed (connection : ℕ)
  | recvError
  | closed
  | close
  | connect (addr : SocketAddr)
  | take (connection : ℕ)
  | read (connection : ℕ) (datagram : Datagram)
  | drop (connection : ℕ)
  | dropAcceptor
  deriving DecidableEq

/-- The steps of the read task; all others are made by the tasks that use the socket. -/
def Event.ofReadTask : Event → Bool
  | .datagram .. | .send .. | .sendClosed .. | .insert .. | .offer .. | .offerClosed ..
  | .recvError | .closed => true
  | _ => false

def DatagramQueue.new (remote : SocketAddr) (origin : Origin) (since : ℕ) : DatagramQueue :=
  ⟨remote, origin, since, .empty, [], true⟩

def DatagramQueue.put (queue : DatagramQueue) (d : Datagram) : DatagramQueue :=
  { queue with
    datagrams := (queue.datagrams.push d).getD queue.datagrams
    history := queue.history ++ [d] }

def DatagramQueue.pop (queue : DatagramQueue) : DatagramQueue :=
  { queue with datagrams := (queue.datagrams.pop.map Prod.snd).getD queue.datagrams }

def DatagramQueue.close (queue : DatagramQueue) : DatagramQueue :=
  { queue with datagrams := .empty, receiver := false }

def ReadTask.holds : ReadTask → Option ℕ
  | .sending _ q true | .inserting _ q true | .offering q => some q
  | _ => none

/-- The remote that the read task forwards for, and the queue it forwards to. -/
def ReadTask.target : ReadTask → Option (SocketAddr × ℕ)
  | .sending d q _ => some (d.source, q)
  | .inserting remote q _ => some (remote, q)
  | _ => none

namespace Socket

def bind : Socket where
  connections := ∅
  queues := fun _ => (DatagramQueue.new (.v4 0 0) .datagram 0).close
  nextQueue := 0
  readTask := .receiving
  incoming := .empty
  acceptor := true
  closeSent := false
  received := []

def updateQueue (s : Socket) (q : ℕ) (queue : DatagramQueue) : Socket :=
  { s with queues := Function.update s.queues q queue }

def channel (s : Socket) (remote : SocketAddr) (origin : Origin) : Socket :=
  { s.updateQueue s.nextQueue (.new remote origin s.received.length) with
    nextQueue := s.nextQueue + 1 }

/-- The connection it returns is the channel made here. -/
def connect (s : Socket) (addr : SocketAddr) : Socket :=
  { s.channel addr .connect with connections := s.connections.insert addr s.nextQueue }

/-- The lookup of `forward_or_new_connection`. -/
def lookup (s : Socket) (bytes : Bytes) (remote : SocketAddr) : Socket :=
  let d : Datagram := ⟨s.received.length, remote, bytes⟩
  match s.connections.lookup remote with
  | some q => { s with received := s.received ++ [d], readTask := .sending d q false }
  | none =>
    { s.channel remote .datagram with
      received := s.received ++ [d]
      readTask := .sending d s.nextQueue true }

/-- A connection that is still in the hands of the read task or waits to be taken up. -/
def held (s : Socket) (q : ℕ) : Prop :=
  s.readTask.holds = some q ∨ q ∈ s.incoming.items

instance (s : Socket) (q : ℕ) : Decidable (s.held q) :=
  inferInstanceAs (Decidable (_ ∨ _))

def enabled (s : Socket) : Event → Prop
  | .datagram _ _ => s.readTask = .receiving
  | .send d q b => s.readTask = .sending d q b ∧ (s.queues q).receiver = true ∧
      (s.queues q).datagrams.full = false
  | .sendClosed d q b => s.readTask = .sending d q b ∧ (s.queues q).receiver = false
  | .insert remote q b => s.readTask = .inserting remote q b
  | .offer q => s.readTask = .offering q ∧ s.acceptor = true ∧ s.incoming.full = false
  | .offerClosed q => s.readTask = .offering q ∧ s.acceptor = false
  | .recvError => s.readTask = .receiving
  | .closed => s.readTask = .receiving ∧ s.closeSent = true
  | .close => True
  | .connect _ => True
  | .take q => s.acceptor = true ∧ s.incoming.items.head? = some q
  | .read q d => q < s.nextQueue ∧ (s.queues q).receiver = true ∧ ¬ s.held q ∧
      (s.queues q).datagrams.items.head? = some d
  | .drop q => q < s.nextQueue ∧ (s.queues q).receiver = true ∧ ¬ s.held q
  | .dropAcceptor => s.acceptor = true

instance (s : Socket) (e : Event) : Decidable (s.enabled e) := by
  cases e <;> dsimp only [enabled] <;> infer_instance

def next (s : Socket) : Event → Socket
  | .datagram bytes remote => s.lookup bytes remote
  | .send d q b =>
    { s.updateQueue q ((s.queues q).put d) with readTask := .inserting d.source q b }
  | .sendClosed .. => { s with readTask := .receiving }
  | .insert remote q b =>
    { s with
      connections := s.connections.insert remote q
      readTask := if b then .offering q else .receiving }
  | .offer q =>
    { s with incoming := (s.incoming.push q).getD s.incoming, readTask := .receiving }
  | .offerClosed q => { s.updateQueue q (s.queues q).close with readTask := .ended }
  | .recvError | .closed => { s with readTask := .ended }
  | .close => { s with closeSent := true }
  | .connect addr => s.connect addr
  | .take _ => { s with incoming := (s.incoming.pop.map Prod.snd).getD s.incoming }
  | .read q _ => s.updateQueue q (s.queues q).pop
  | .drop q => s.updateQueue q (s.queues q).close
  | .dropAcceptor =>
    { s with
      acceptor := false
      incoming := .empty
      queues := fun q => if q ∈ s.incoming.items then (s.queues q).close else s.queues q }

end Socket

def machine : Machine Socket Event := guarded (· = Socket.bind) Socket.enabled Socket.next

end Uip.Io
