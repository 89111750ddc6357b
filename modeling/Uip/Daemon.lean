import Uip.NetworkState
import Uip.TransportSocketInvariant

/-!
# The daemon

A daemon has a network state, a transport socket for each of its addresses and any number of
tasks: one that delivers the frames of a socket, one that connects a socket to the relays, and
the calls of `send_frame`, `request_peer_info` and `get_connection`. Transport sockets are
numbered in the order in which they were opened.
-/
namespace Uip
open TransitionSystem Transport

variable {tls : Tls}

/-- What a task goes back to when it is done with a call. -/
inductive Loop
  | once
  | deliver (socket : ℕ)
  | relays (socket : ℕ) (rest : List Identifier)
  deriving DecidableEq

/-- Where a task stands. A `message` is what it sends over the connection once it has it. -/
inductive Phase
  | idle
  | delivering (delivery : Delivery)
  | lookup (host : Identifier) (message : Option Frame)
  | connecting (host : Identifier) (message : Option Frame)
  | handshake (socket q : ℕ) (message : Option Frame)
  | sending (socket q : ℕ) (message : Option Frame)
  | ended
  deriving DecidableEq

structure Task where
  loop : Loop
  phase : Phase
  deriving DecidableEq

structure Daemon (tls : Tls) where
  network : NetworkState
  sockets : HashMap SocketAddrV6 ℕ
  table : ℕ → Socket tls
  nextSocket : ℕ
  tasks : ℕ → Task
  nextTask : ℕ

inductive DaemonEvent (tls : Tls)
  | socket (k : ℕ) (e : SocketEvent tls)
  | openSocket (address : SocketAddrV6)
  | closeSocket (address : SocketAddrV6) (k : ℕ)
  | sendFrame (host : Identifier) (srcPort dstPort : UInt16) (data : Bytes)
  | requestPeerInfo (id : Identifier)
  | getConnection (host : Identifier)
  | connectToRelays (k : ℕ)
  | take (n k : ℕ) (delivery : Delivery)
  | upstream (n : ℕ) (delivery : Delivery)
  | process (n : ℕ) (delivery : Delivery)
  | panicked (n k : ℕ) (delivery : Delivery)
  | found (n k q : ℕ) (host : Identifier) (message : Option Frame)
  | missing (n : ℕ) (host : Identifier) (message : Option Frame)
  | unconnectable (n : ℕ) (host : Identifier) (message : Option Frame)
  | choose (n k : ℕ) (host : Identifier) (address : SocketAddrV6) (message : Option Frame)
  | relayKnown (n k : ℕ) (relay : Identifier) (rest : List Identifier)
  | relayUnknown (n k : ℕ) (relay : Identifier) (rest : List Identifier)
  | relayOpen (n k : ℕ) (relay : Identifier) (rest : List Identifier) (address : SocketAddrV6)
  | opened (n k q : ℕ) (session : Session tls) (message : Option Frame)
  | openFailed (n k q : ℕ) (message : Option Frame)
  | send (n k q : ℕ) (frame : Frame)
  | sendFailed (n k q : ℕ) (frame : Frame)
  | returned (n k q : ℕ)

/-- The steps that a transport socket and its connections make by themselves; a frame is sent
over a connection by any task that has got it. -/
def Transport.SocketEvent.internal : SocketEvent tls → Bool
  | .openConnection .. | .openFailed _ | .opened .. | .take _ | .dropReceiver | .close => false
  | _ => true

def DaemonEvent.onSocket : DaemonEvent tls → Option (ℕ × SocketEvent tls)
  | .socket k e => some (k, e)
  | .closeSocket _ k => some (k, .close)
  | .take _ k delivery => some (k, .take delivery)
  | .panicked _ k _ => some (k, .dropReceiver)
  | .choose _ k host address _ => some (k, .openConnection host address)
  | .relayOpen _ k relay _ address => some (k, .openConnection relay address)
  | .opened _ k q session _ => some (k, .opened q session)
  | .openFailed _ k q _ => some (k, .openFailed q)
  | .send _ k q frame => some (k, .connection q (.send frame))
  | _ => none

def Transport.Delivery.isControl (d : Delivery) : Prop := d.srcPort = 0 ∧ d.dstPort = 0

instance (d : Delivery) : Decidable d.isControl := inferInstanceAs (Decidable (_ ∧ _))

/-- The frame of a control message that could be serialised. -/
def controlFrame (data : Option Bytes) : Option Frame := data.map (.data 0 0)

namespace Daemon

variable (pack : MessagePack)

def new (tls : Tls) (network : NetworkState) : Daemon tls :=
  ⟨network, ∅, fun _ => .new tls, 0, fun _ => ⟨.once, .idle⟩, 0⟩

def openSockets (d : Daemon tls) : List ℕ := d.sockets.entries.map Sigma.snd

def myPeerInformation (d : Daemon tls) : Peer :=
  ⟨d.network.id, d.sockets.keys, d.network.relays⟩

/-- `get_connection` finds nothing on any open socket. -/
def unknown (d : Daemon tls) (host : Identifier) : Prop :=
  ∀ k ∈ d.openSockets, (d.table k).getConnection host = none

instance (d : Daemon tls) (host : Identifier) : Decidable (d.unknown host) :=
  inferInstanceAs (Decidable (∀ k ∈ d.openSockets, (d.table k).getConnection host = none))

def admits (d : Daemon tls) : DaemonEvent tls → Prop
  | .socket k e => k < d.nextSocket ∧ e.internal = true
  | .openSocket address => d.sockets.lookup address = none
  | .closeSocket address k => d.sockets.lookup address = some k
  | .sendFrame .. | .requestPeerInfo _ | .getConnection _ => True
  | .connectToRelays k => k ∈ d.openSockets
  | .take n k _ => d.tasks n = ⟨.deliver k, .idle⟩
  | .upstream n delivery => (d.tasks n).phase = .delivering delivery ∧ ¬ delivery.isControl
  | .process n delivery => (d.tasks n).phase = .delivering delivery ∧ delivery.isControl ∧
      (d.network.processControlMessage pack delivery.hostId delivery.data).isSome = true
  | .panicked n k delivery => d.tasks n = ⟨.deliver k, .delivering delivery⟩ ∧
      delivery.isControl ∧
      (d.network.processControlMessage pack delivery.hostId delivery.data).isNone = true
  | .found n k q host message => (d.tasks n).phase = .lookup host message ∧
      k ∈ d.openSockets ∧ (d.table k).getConnection host = some q
  | .missing n host message => (d.tasks n).phase = .lookup host message ∧ d.unknown host
  | .unconnectable n host message => (d.tasks n).phase = .connecting host message ∧
      (d.network.pib.lookupPeerAddress host = none ∨ d.openSockets = [])
  | .choose n k host address message => (d.tasks n).phase = .connecting host message ∧
      d.network.pib.lookupPeerAddress host = some address ∧ k ∈ d.openSockets
  | .relayKnown n k relay rest => d.tasks n = ⟨.relays k (relay :: rest), .idle⟩ ∧
      (d.table k).getConnection relay ≠ none
  | .relayUnknown n k relay rest => d.tasks n = ⟨.relays k (relay :: rest), .idle⟩ ∧
      (d.table k).getConnection relay = none ∧ d.network.pib.lookupPeerAddress relay = none
  | .relayOpen n k relay rest address => d.tasks n = ⟨.relays k (relay :: rest), .idle⟩ ∧
      (d.table k).getConnection relay = none ∧
      d.network.pib.lookupPeerAddress relay = some address
  | .opened n k q _ message | .openFailed n k q message =>
      (d.tasks n).phase = .handshake k q message
  | .send n k q frame => (d.tasks n).phase = .sending k q (some frame)
  | .sendFailed n k q frame => (d.tasks n).phase = .sending k q (some frame) ∧
      ((d.table k).endpoints q).satisfies fun c => c.writeTask = .ended
  | .returned n k q => (d.tasks n).phase = .sending k q none

instance (d : Daemon tls) (e : DaemonEvent tls) : Decidable (d.admits pack e) := by
  cases e <;> dsimp only [admits] <;> infer_instance

def enabled (d : Daemon tls) (e : DaemonEvent tls) : Prop :=
  d.admits pack e ∧ e.onSocket.elim True fun x => (d.table x.1).enabled x.2

instance (d : Daemon tls) (e : DaemonEvent tls) : Decidable (d.enabled pack e) := by
  unfold enabled
  cases e <;> dsimp only [DaemonEvent.onSocket, Option.elim] <;> infer_instance

def setTask (d : Daemon tls) (n : ℕ) (task : Task) : Daemon tls :=
  { d with tasks := Function.update d.tasks n task }

def setPhase (d : Daemon tls) (n : ℕ) (phase : Phase) : Daemon tls :=
  d.setTask n ⟨(d.tasks n).loop, phase⟩

def spawn (d : Daemon tls) (task : Task) : Daemon tls :=
  { d.setTask d.nextTask task with nextTask := d.nextTask + 1 }

/-- `open_socket`: the new socket gets its deliver task and a task that connects to the relays. -/
def openSocket (d : Daemon tls) (address : SocketAddrV6) : Daemon tls :=
  let d' := { d with
    sockets := d.sockets.insert address d.nextSocket
    table := Function.update d.table d.nextSocket (.new tls)
    nextSocket := d.nextSocket + 1 }
  (d'.spawn ⟨.relays d.nextSocket d.network.relays, .idle⟩).spawn ⟨.deliver d.nextSocket, .idle⟩

def processDelivery (d : Daemon tls) (n : ℕ) (delivery : Delivery) : Daemon tls :=
  match d.network.processControlMessage pack delivery.hostId delivery.data with
  | some (network, some reply) =>
    { d.setPhase n (.lookup reply.host (controlFrame (NetworkState.sendPeerInfo pack reply.peer)))
      with network := network }
  | some (network, none) => { d.setPhase n .idle with network := network }
  | none => d

/-- What a task sends over a connection it has opened: a relay gets the own peer record. -/
def openedMessage (d : Daemon tls) (n : ℕ) (message : Option Frame) : Option Frame :=
  match (d.tasks n).loop with
  | .relays .. => controlFrame (NetworkState.sendPeerInfo pack d.myPeerInformation)
  | _ => message

/-- The effect of an event apart from what it does at a transport socket. -/
def effect (d : Daemon tls) : DaemonEvent tls → Daemon tls
  | .socket .. => d
  | .openSocket address => d.openSocket address
  | .closeSocket address _ => { d with sockets := d.sockets.erase address }
  | .sendFrame host srcPort dstPort data =>
    d.spawn ⟨.once, .lookup host (some (.data srcPort dstPort data))⟩
  | .requestPeerInfo id =>
    match d.network.requestPeerInfo id with
    | some request => d.spawn ⟨.once, .lookup request.relay
        (controlFrame (NetworkState.sendPeerInfoRequest pack request.id))⟩
    | none => d
  | .getConnection host => d.spawn ⟨.once, .lookup host none⟩
  | .connectToRelays k => d.spawn ⟨.relays k d.network.relays, .idle⟩
  | .take n _ delivery => d.setPhase n (.delivering delivery)
  | .process n delivery => d.processDelivery pack n delivery
  | .panicked n _ _ => d.setPhase n .ended
  | .found n k q _ message => d.setPhase n (.sending k q message)
  | .missing n host message => d.setPhase n (.connecting host message)
  | .choose n k _ _ message => d.setPhase n (.handshake k (d.table k).io.nextQueue message)
  | .relayKnown n k _ rest | .relayUnknown n k _ rest => d.setTask n ⟨.relays k rest, .idle⟩
  | .relayOpen n k _ rest _ =>
    d.setTask n ⟨.relays k rest, .handshake k (d.table k).io.nextQueue none⟩
  | .opened n k q _ message => d.setPhase n (.sending k q (d.openedMessage pack n message))
  | .upstream n _ | .unconnectable n _ _ | .openFailed n _ _ _ | .send n _ _ _
  | .sendFailed n _ _ _ | .returned n _ _ => d.setPhase n .idle

def onTable (table : ℕ → Socket tls) (x : ℕ × SocketEvent tls) : ℕ → Socket tls :=
  Function.update table x.1 ((table x.1).next x.2)

def next (d : Daemon tls) (e : DaemonEvent tls) : Daemon tls :=
  { d.effect pack e with table := e.onSocket.elim (d.effect pack e).table (onTable d.table) }

end Daemon

def daemonMachine (tls : Tls) (pack : MessagePack) : Machine (Daemon tls) (DaemonEvent tls) :=
  guarded (fun d => ∃ network, d = .new tls network) (Daemon.enabled pack) (Daemon.next pack)

section Addresses

def localAddr : SocketAddrV6 := ⟨0xfd000000000000000000000000000006, 65041, 0, 0⟩

def hostAddr : SocketAddrV6 := ⟨0xfd000000000000000000000000000007, 65041, 0, 0⟩

end Addresses

end Uip
