import Uip.Daemon
import Uip.ItemQueues
import Uip.TransportCodec
import Uip.UnixCodec

/-!
# Daemons, their clients and the connections between them

Every daemon has local clients, a network state and ends of connections. What a client sends goes
from queue to queue: to its daemon, as a record to the daemon at the other end of a connection, and
to a client there. Items bear the number of who issued them; a number names an item in an event, no
step depends on it otherwise. Any item may be lost at any place.
-/
namespace Uip
open TransitionSystem ItemQueues Transport

/-- The ends of all connections: the daemon and the socket that an end belongs to, the identifier
that the connection bears there, and the other end. A DTLS record is bounded. -/
structure Wiring where
  host : ℕ → Identifier
  socket : ℕ → ℕ
  remoteId : ℕ → Identifier
  peer : ℕ → ℕ
  maxRecord : ℕ
  maxRecord_le : maxRecord ≤ 16384

/-- The frame `i` of a client, or the frame `i` that a daemon itself puts into the sink of an
end. -/
inductive Number
  | client (h : Identifier) (k i : ℕ)
  | daemon (e i : ℕ)
  deriving DecidableEq

/-- The channels, and for each task what it has in hand. -/
inductive Place
  | inbox (h : Identifier) (k : ℕ)
  | unixRead (h : Identifier) (k : ℕ)
  | unixSource (h : Identifier)
  | unixToNetwork (h : Identifier)
  | sink (e : ℕ)
  | writing (e : ℕ)
  | flight (e : ℕ)
  | decoded (e : ℕ)
  | reading (e : ℕ)
  | deliverFrame (h : Identifier) (j : ℕ)
  | delivering (h : Identifier) (j : ℕ)
  | replying (h : Identifier) (j : ℕ)
  | networkSource (h : Identifier)
  | networkToUnix (h : Identifier)
  | handing (h : Identifier)
  | channel (h : Identifier) (k : ℕ)
  | stream (h : Identifier) (k : ℕ)
  deriving DecidableEq

namespace Place

/-- A delivery stands for any tuple of an identifier, two ports and data; with the frame that is
being handed over stands the client whose channel was found. -/
@[reducible] def Content : Place → Type
  | inbox .. | channel .. | stream .. => Unix.Frame
  | sink _ | writing _ | decoded _ => Frame
  | flight _ => Bytes
  | replying .. => Reply
  | handing _ => ℕ × Unix.Frame
  | unixRead .. | unixSource _ | unixToNetwork _ | reading _ | deliverFrame .. | delivering ..
  | networkSource _ | networkToUnix _ => Delivery

/-- A stream takes any number of frames here; a client that takes none is a parameter of the
results that depend on it. -/
def capacity : Place → Option ℕ
  | unixSource _ | networkSource _ => some 5
  | sink _ | deliverFrame .. | channel .. => some 10
  | inbox .. | flight _ | decoded _ | stream .. => none
  | unixRead .. | unixToNetwork _ | writing _ | reading _ | delivering .. | replying ..
  | networkToUnix _ | handing _ => some 1

end Place

inductive Client
  | connected
  | bound (srcPort : UInt16) (reading : Bool)
  | closed
  deriving DecidableEq

def Client.port : Client → Option UInt16
  | .bound srcPort _ => some srcPort
  | _ => none

/-- `handling` is the client whose first frame the accept loop awaits. -/
structure UnixState where
  connections : HashMap UInt16 ℕ
  clients : ℕ → Client
  nextClient : ℕ
  backlog : List ℕ
  handling : Option ℕ

namespace UnixState

def new : UnixState := ⟨∅, fun _ => .connected, 0, [], none⟩

def bound (u : UnixState) (k : ℕ) : Option UInt16 := (u.clients k).port

def setClient (u : UnixState) (k : ℕ) (client : Client) : UnixState :=
  { u with clients := Function.update u.clients k client }

/-- What `handle_new_stream` does with the first frame: the tasks of a bound client start. -/
def handleNewStream (u : UnixState) (k : ℕ) (frame : Unix.Frame) : UnixState :=
  match frame with
  | .bind srcPort =>
    { u.setClient k (.bound srcPort true) with
      connections := u.connections.insert srcPort k
      handling := none }
  | .data .. | .error _ => { u.setClient k .closed with handling := none }

def endOfStream (u : UnixState) (k : ℕ) : UnixState :=
  match u.clients k with
  | .bound srcPort _ => u.setClient k (.bound srcPort false)
  | _ => { u.setClient k .closed with handling := none }

def sendFrame (hostId : Identifier) (srcPort dstPort : UInt16) (data : Bytes) : Delivery :=
  ⟨hostId, srcPort, dstPort, data⟩

/-- The client that `deliver_frame` finds, and the frame that it gets. -/
def deliverFrame (u : UnixState) (hostId : Identifier) (remotePort localPort : UInt16)
    (data : Bytes) : Option (ℕ × Unix.Frame) :=
  (u.connections.lookup localPort).map fun socket => (socket, .data hostId remotePort data)

end UnixState

def sendDataFrame (srcPort dstPort : UInt16) (data : Bytes) : Frame := .data srcPort dstPort data

/-- `buffer` holds what an end has received and not decoded; `written` and `replies` record what
clients have sent and daemons have replied, and no step reads them except to number the frames. -/
structure World where
  unix : Identifier → UnixState
  network : Identifier → NetworkState
  queue : Queues Number Place.Content
  buffer : ℕ → Bytes
  sent : ℕ → ℕ
  written : Identifier → ℕ → List Unix.Frame
  replies : Identifier → List Reply

inductive WorldEvent
  | connect (h : Identifier) (k : ℕ)
  | write (h : Identifier) (k i : ℕ) (frame : Unix.Frame)
  | accept (h : Identifier) (k : ℕ)
  | firstFrame (h : Identifier) (k : ℕ) (n : Number)
  | endOfStream (h : Identifier) (k : ℕ)
  | advance (x : Place) (n : Number)
  | send (h : Identifier) (e : ℕ) (n : Number)
  | arrive (e : ℕ) (n : Number)
  | ping (e i : ℕ)
  | pong (e i : ℕ) (n : Number)
  | control (e i : ℕ) (message : Message)
  | process (h : Identifier) (j : ℕ) (n : Number)
  | reply (h : Identifier) (j e i : ℕ) (n : Number)
  | lose (x : Place) (n : Number)
  deriving DecidableEq

/-- What becomes of the first item of a queue: it goes to the end of another queue, it is dropped,
it ends the read task of a client, or it has to wait. -/
inductive Effect
  | pass (y : Place) (content : y.Content)
  | drop
  | stop (h : Identifier) (k : ℕ)
  | stuck

namespace World

variable (w : Wiring) (pack : MessagePack)

def new (network : Identifier → NetworkState) : World where
  unix _ := .new
  network := network
  queue := empty
  buffer _ := []
  sent _ := 0
  written _ _ := []
  replies _ := []

def setUnix (s : World) (h : Identifier) (u : UnixState) : World :=
  { s with unix := Function.update s.unix h u }

def content (s : World) (x : Place) (n : Number) : Option x.Content := find s.queue x n

def first (s : World) (x : Place) : Option Number := (numbers s.queue x).head?

def room (s : World) (y : Place) : Bool :=
  y.capacity.all fun c => decide ((s.queue y).length < c)

/-- What the owner of a queue does with its first item, apart from `send`, `arrive`, `pong`,
`process` and `reply`. -/
def stage (s : World) : (x : Place) → x.Content → Effect
  | .inbox h k, frame =>
    match (s.unix h).clients k with
    | .bound srcPort true =>
      match frame with
      | .data hostId dstPort data =>
        .pass (.unixRead h k) (UnixState.sendFrame hostId srcPort dstPort data)
      | _ => .stop h k
    | _ => .stuck
  | .unixRead h _, tuple => .pass (.unixSource h) tuple
  | .unixSource h, tuple => .pass (.unixToNetwork h) tuple
  | .sink e, frame => .pass (.writing e) frame
  | .writing e, frame =>
    -- An oversized record ends the write task; what comes after it is lost by `lose` steps.
    match Codec.encode frame [] with
    | .ok record =>
      if record.length ≤ w.maxRecord then .pass (.flight (w.peer e)) record else .drop
    | .error _ => .drop
  | .decoded e, frame =>
    if (s.queue (.reading e)).isEmpty then
      match frame with
      | .data srcPort dstPort data => .pass (.reading e) ⟨w.remoteId e, srcPort, dstPort, data⟩
      | .pong => .drop
      | .ping => .stuck
    else .stuck
  | .reading e, tuple => .pass (.deliverFrame (w.host e) (w.socket e)) tuple
  | .deliverFrame h j, tuple =>
    if (s.queue (.replying h j)).isEmpty then .pass (.delivering h j) tuple else .stuck
  | .delivering h _, tuple =>
    if tuple.isControl then .stuck else .pass (.networkSource h) tuple
  | .networkSource h, tuple =>
    if (s.queue (.handing h)).isEmpty then .pass (.networkToUnix h) tuple else .stuck
  | .networkToUnix h, tuple =>
    match (s.unix h).deliverFrame tuple.hostId tuple.srcPort tuple.dstPort
      tuple.data with
    | some found => .pass (.handing h) found
    | none => .drop
  | .handing h, found => .pass (.channel h found.1) found.2
  | .channel h k, frame => .pass (.stream h k) frame
  | .unixToNetwork _, _ | .flight _, _ | .replying .., _ | .stream .., _ => .stuck

def effect (s : World) (x : Place) (n : Number) : Effect :=
  (s.content x n).elim .stuck (s.stage w x)

def ready (s : World) : Effect → Bool
  | .pass y _ => s.room y
  | .drop | .stop .. => true
  | .stuck => false

def enabled (s : World) : WorldEvent → Prop
  | .connect h k => k = (s.unix h).nextClient
  | .write h k i _ => k < (s.unix h).nextClient ∧ i = (s.written h k).length
  | .accept h k => (s.unix h).handling = none ∧ (s.unix h).backlog.head? = some k
  | .firstFrame h k n => (s.unix h).handling = some k ∧ s.first (.inbox h k) = some n
  | .endOfStream h k => (s.queue (.inbox h k)).isEmpty = true ∧
      ((s.unix h).handling = some k ∨ ((s.unix h).bound k).isSome = true)
  | .advance x n => s.first x = some n ∧ s.ready (s.effect w x n) = true
  | .send h e n => s.first (.unixToNetwork h) = some n ∧ w.host e = h ∧ s.room (.sink e) = true ∧
      (s.content (.unixToNetwork h) n).any (fun tuple =>
        decide (w.remoteId e = tuple.hostId)) = true
  | .arrive e n => (s.content (.flight e) n).isSome = true ∧
      (s.queue (.decoded e)).isEmpty = true ∧ (s.queue (.reading e)).isEmpty = true
  | .ping e i => i = s.sent e ∧ s.room (.sink e) = true
  | .pong e i n => i = s.sent e ∧ s.room (.sink e) = true ∧ s.first (.decoded e) = some n ∧
      (s.queue (.reading e)).isEmpty = true ∧
      (s.content (.decoded e) n).any (fun frame => decide (frame = .ping)) = true
  | .control e i message => i = s.sent e ∧ s.room (.sink e) = true ∧
      (pack.serializeToMsgpck message []).isSome = true
  | .process h j n => s.first (.delivering h j) = some n ∧ s.room (.replying h j) = true ∧
      (s.content (.delivering h j) n).any (fun tuple => decide (tuple.isControl ∧
        ((s.network h).processControlMessage pack tuple.hostId tuple.data).isSome = true)) = true
  | .reply h j e i n => i = s.sent e ∧ s.room (.sink e) = true ∧
      s.first (.replying h j) = some n ∧ w.host e = h ∧
      (s.content (.replying h j) n).any (fun reply => decide (w.remoteId e = reply.host ∧
        (NetworkState.sendPeerInfo pack reply.peer).isSome = true)) = true
  | .lose x n => (s.content x n).isSome = true

/-- A daemon puts a frame of its own into the sink of an end. -/
def issue (s : World) (e : ℕ) (frame : Frame) : World :=
  { s with
    queue := push s.queue (.sink e) (.daemon e (s.sent e)) frame
    sent := Function.update s.sent e (s.sent e + 1) }

def take (s : World) (x : Place) (n : Number) : World := { s with queue := erase s.queue x n }

def pass (s : World) (x : Place) (n : Number) (y : Place) (content : y.Content) : World :=
  { s with queue := push (erase s.queue x n) y n content }

/-- The frames of a record; each bears its number. -/
def arrive (s : World) (e : ℕ) (n : Number) (record : Bytes) : World :=
  let drained := StreamDecoder.drain Codec.decode (s.buffer e ++ record)
  { s with
    queue := drained.frames.foldl (fun q frame => push q (.decoded e) n frame)
      (erase s.queue (.flight e) n)
    buffer := Function.update s.buffer e drained.rest }

def process (s : World) (h : Identifier) (j : ℕ) (n : Number) (tuple : Delivery) : World :=
  match (s.network h).processControlMessage pack tuple.hostId tuple.data with
  | some (network, some reply) =>
    { s.pass (.delivering h j) n (.replying h j) reply with
      network := Function.update s.network h network }
  | some (network, none) =>
    { s.take (.delivering h j) n with network := Function.update s.network h network }
  | none => s

def reply (s : World) (h : Identifier) (j e : ℕ) (n : Number) (reply : Reply) : World :=
  match NetworkState.sendPeerInfo pack reply.peer with
  | some data =>
    { (s.take (.replying h j) n).issue e (.data 0 0 data) with
      replies := Function.update s.replies h (s.replies h ++ [reply]) }
  | none => s

def apply (s : World) (x : Place) (n : Number) : Effect → World
  | .pass y content => s.pass x n y content
  | .drop => s.take x n
  | .stop h k => (s.take x n).setUnix h ((s.unix h).endOfStream k)
  | .stuck => s

def next (s : World) : WorldEvent → World
  | .connect h k => s.setUnix h { s.unix h with
      nextClient := k + 1
      backlog := (s.unix h).backlog ++ [k] }
  | .write h k i frame =>
    { s with
      queue := push s.queue (.inbox h k) (.client h k i) frame
      written := Function.update s.written h
        (Function.update (s.written h) k (s.written h k ++ [frame])) }
  | .accept h k => s.setUnix h { s.unix h with
      handling := some k
      backlog := (s.unix h).backlog.tail }
  | .firstFrame h k n =>
    (s.content (.inbox h k) n).elim s fun frame =>
      (s.take (.inbox h k) n).setUnix h ((s.unix h).handleNewStream k frame)
  | .endOfStream h k => s.setUnix h ((s.unix h).endOfStream k)
  | .advance x n => s.apply x n (s.effect w x n)
  | .send h e n =>
    (s.content (.unixToNetwork h) n).elim s fun tuple =>
      s.pass (.unixToNetwork h) n (.sink e) (sendDataFrame tuple.srcPort tuple.dstPort tuple.data)
  | .arrive e n => (s.content (.flight e) n).elim s (s.arrive e n)
  | .ping e _ => s.issue e .ping
  | .pong e _ n => (s.take (.decoded e) n).issue e .pong
  | .control e _ message =>
    (pack.serializeToMsgpck message []).elim s fun data => s.issue e (.data 0 0 data)
  | .process h j n => (s.content (.delivering h j) n).elim s (s.process pack h j n)
  | .reply h j e _ n => (s.content (.replying h j) n).elim s (s.reply pack h j e n)
  | .lose x n => s.take x n

end World

instance (w : Wiring) (pack : MessagePack) (s : World) (e : WorldEvent) :
    Decidable (s.enabled w pack e) := by
  cases e <;> dsimp only [World.enabled] <;> infer_instance

def worldMachine (w : Wiring) (pack : MessagePack) : Machine World WorldEvent :=
  guarded (fun s => ∃ network, s = .new network) (World.enabled w pack) (World.next w pack)

end Uip
