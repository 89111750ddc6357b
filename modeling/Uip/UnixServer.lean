import Uip.World

/-!
# The control socket server

The accept loop takes one client after another and awaits its first frame. A bound client has a
read task, which sends its data frames upstream, and a write task, which takes frames from the
client's channel; the network-to-unix loop puts them there. Clients are numbered in the order in
which they connect. `LocalClient.written` records what a client has sent; no step reads it.
-/
namespace Uip
open TransitionSystem Transport

/-- What a read half yields apart from the end of the stream. -/
inductive ReadItem
  | frame (frame : Unix.Frame)
  | error
  deriving DecidableEq

structure LocalClient where
  connected : Bool
  closed : Bool
  written : List ReadItem
  deriving DecidableEq

inductive UnixWriteTask
  | receiving
  | writing (frame : Unix.Frame)
  | ended
  deriving DecidableEq

/-- The stream of a client: what is still to be read from it, the tuple that its read task sends
upstream, its write task and its channel. -/
structure UnixStream where
  client : LocalClient
  input : List ReadItem
  sending : Option Delivery
  writeTask : UnixWriteTask
  channel : BoundedQueue Unix.Frame 10

/-- `handing` is the client whose channel the network-to-unix loop sends a frame into. -/
structure UnixServer where
  unix : UnixState
  streams : ℕ → UnixStream
  upstream : BoundedQueue Delivery 5
  networkSource : BoundedQueue Delivery 5
  handing : Option (ℕ × Unix.Frame)

inductive UnixEvent
  | connect (k : ℕ)
  | write (k : ℕ) (item : ReadItem)
  | close (k : ℕ)
  | accept (k : ℕ)
  | first (k : ℕ) (item : Option ReadItem)
  | read (k : ℕ) (item : Option ReadItem)
  | sent (k : ℕ) (tuple : Delivery)
  | takeUpstream (tuple : Delivery)
  | takeFrame (k : ℕ) (frame : Unix.Frame)
  | written (k : ℕ) (frame : Unix.Frame)
  | writeFailed (k : ℕ) (frame : Unix.Frame)
  | channelClosed (k : ℕ)
  | enqueue (tuple : Delivery)
  | deliver (tuple : Delivery)
  | handed (k : ℕ) (frame : Unix.Frame)
  | handFailed (k : ℕ) (frame : Unix.Frame)
  deriving DecidableEq

/-- The client that an event comes from, unless the daemon makes it. -/
def UnixEvent.client : UnixEvent → Option ℕ
  | .connect k | .write k _ | .close k => some k
  | _ => none

def UnixState.usedPorts (u : UnixState) : List UInt16 := u.connections.keys

/-- What `handle_new_stream` does with the first item. -/
def UnixState.first (u : UnixState) (k : ℕ) : Option ReadItem → UnixState
  | some (.frame frame) => u.handleNewStream k frame
  | some .error | none => u.endOfStream k

/-- What the read task of a bound client does with an item: only after data it goes on. -/
def UnixState.read (u : UnixState) (k : ℕ) : Option ReadItem → UnixState
  | some (.frame (.data ..)) => u
  | _ => u.endOfStream k

namespace UnixStream

/-- The next item of the read half, `none` where it has to wait. -/
def poll (stream : UnixStream) : Option (Option ReadItem) :=
  match stream.input with
  | item :: _ => some (some item)
  | [] => if stream.client.closed then some none else none

def start (stream : UnixStream) : Option ReadItem → UnixStream
  | some (.frame (.bind _)) =>
    { stream with input := stream.input.tail, writeTask := .receiving, channel := .empty }
  | _ => stream

def send (stream : UnixStream) (srcPort : Option UInt16) : Option ReadItem → UnixStream
  | some (.frame (.data hostId dstPort data)) =>
    { stream with
      input := stream.input.tail
      sending := srcPort.map fun srcPort => UnixState.sendFrame hostId srcPort dstPort data }
  | _ => stream

end UnixStream

namespace UnixServer

def new : UnixServer where
  unix := .new
  streams _ := ⟨⟨false, false, []⟩, [], none, .ended, .empty⟩
  upstream := .empty
  networkSource := .empty
  handing := none

def modify (s : UnixServer) (k : ℕ) (f : UnixStream → UnixStream) : UnixServer :=
  { s with streams := Function.update s.streams k (f (s.streams k)) }

/-- `deliver_frame` up to its send. -/
def deliverFrame (s : UnixServer) (tuple : Delivery) : UnixServer :=
  { s with
    networkSource := (s.networkSource.pop.map Prod.snd).getD s.networkSource
    handing := s.unix.deliverFrame tuple.hostId tuple.srcPort tuple.dstPort tuple.data }

def reads (s : UnixServer) (k : ℕ) : Prop :=
  ∃ srcPort ∈ s.unix.bound k, s.unix.clients k = .bound srcPort true

instance (s : UnixServer) (k : ℕ) : Decidable (s.reads k) :=
  inferInstanceAs (Decidable (∃ srcPort ∈ s.unix.bound k, s.unix.clients k = .bound srcPort true))

def registered (s : UnixServer) (k : ℕ) : Prop :=
  ∃ srcPort ∈ s.unix.bound k, s.unix.connections.lookup srcPort = some k

instance (s : UnixServer) (k : ℕ) : Decidable (s.registered k) :=
  inferInstanceAs
    (Decidable (∃ srcPort ∈ s.unix.bound k, s.unix.connections.lookup srcPort = some k))

/-- A write task takes frames from the channel, and there is room in it. -/
def hasRoom (s : UnixServer) (k : ℕ) : Prop :=
  (s.streams k).writeTask ≠ .ended ∧ (s.streams k).channel.full = false

instance (s : UnixServer) (k : ℕ) : Decidable (s.hasRoom k) := inferInstanceAs (Decidable (_ ∧ _))

def enabled (s : UnixServer) : UnixEvent → Prop
  | .connect k => s.unix.nextClient ≤ k
  | .write k _ | .close k => (s.streams k).client.connected = true ∧
      (s.streams k).client.closed = false
  | .accept k => s.unix.handling = none ∧ s.unix.backlog.head? = some k
  | .first k item => s.unix.handling = some k ∧ (s.streams k).poll = some item
  | .read k item => s.reads k ∧ (s.streams k).sending = none ∧ (s.streams k).poll = some item
  | .sent k tuple => (s.streams k).sending = some tuple ∧ s.upstream.full = false
  | .takeUpstream tuple => s.upstream.items.head? = some tuple
  | .takeFrame k frame => (s.streams k).writeTask = .receiving ∧
      (s.streams k).channel.items.head? = some frame
  | .written k frame => (s.streams k).writeTask = .writing frame ∧
      (s.streams k).client.closed = false
  | .writeFailed k frame => (s.streams k).writeTask = .writing frame ∧
      (s.streams k).client.closed = true
  | .channelClosed k => (s.streams k).writeTask = .receiving ∧
      (s.streams k).channel.items = [] ∧ ¬ s.registered k ∧ ∀ found ∈ s.handing, found.1 ≠ k
  | .enqueue _ => s.networkSource.full = false
  | .deliver tuple => s.handing = none ∧ s.networkSource.items.head? = some tuple
  | .handed k frame => s.handing = some (k, frame) ∧ s.hasRoom k
  | .handFailed k frame => s.handing = some (k, frame) ∧ (s.streams k).writeTask = .ended

instance (s : UnixServer) (e : UnixEvent) : Decidable (s.enabled e) := by
  cases e <;> dsimp only [enabled] <;> infer_instance

def next (s : UnixServer) : UnixEvent → UnixServer
  | .connect k =>
    { s.modify k fun stream => { stream with client := { stream.client with connected := true } }
      with unix := { s.unix with nextClient := k + 1, backlog := s.unix.backlog ++ [k] } }
  | .write k item =>
    s.modify k fun stream =>
      { stream with
        client := { stream.client with written := stream.client.written ++ [item] }
        input := stream.input ++ [item] }
  | .close k =>
    s.modify k fun stream => { stream with client := { stream.client with closed := true } }
  | .accept k =>
    { s with unix := { s.unix with handling := some k, backlog := s.unix.backlog.tail } }
  | .first k item =>
    { s.modify k fun stream => stream.start item with unix := s.unix.first k item }
  | .read k item =>
    { s.modify k fun stream => stream.send (s.unix.bound k) item with unix := s.unix.read k item }
  | .sent k tuple =>
    { s.modify k fun stream => { stream with sending := none } with
      upstream := (s.upstream.push tuple).getD s.upstream }
  | .takeUpstream _ =>
    { s with upstream := (s.upstream.pop.map Prod.snd).getD s.upstream }
  | .takeFrame k frame =>
    s.modify k fun stream =>
      { stream with
        writeTask := .writing frame
        channel := (stream.channel.pop.map Prod.snd).getD stream.channel }
  | .written k _ => s.modify k fun stream => { stream with writeTask := .receiving }
  | .writeFailed k _ | .channelClosed k =>
    s.modify k fun stream => { stream with writeTask := .ended, channel := .empty }
  | .enqueue tuple =>
    { s with networkSource := (s.networkSource.push tuple).getD s.networkSource }
  | .deliver tuple => s.deliverFrame tuple
  | .handed k frame =>
    { s.modify k fun stream =>
        { stream with channel := (stream.channel.push frame).getD stream.channel } with
      handing := none }
  | .handFailed .. => { s with handing := none }

end UnixServer

def unixMachine : Machine UnixServer UnixEvent :=
  guarded (· = UnixServer.new) UnixServer.enabled UnixServer.next

end Uip
