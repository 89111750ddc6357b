import Uip.TransportAccept
import Uip.TransportConnection

/-!
# The transport socket

A transport socket owns a demultiplexer, accepts and opens connections and keeps the accepted
ones by the identifier of their peer. Every connection, and every call of `open_connection`,
works over one connection of the demultiplexer and is known by that connection's number.
`delivered` records which party sent each tuple of the `deliver_frame` channel; no step reads it.
-/
namespace Uip.Transport
open TransitionSystem

variable {tls : Tls}

/-- What works over a connection of the demultiplexer, apart from the accept task. -/
inductive Endpoint (tls : Tls)
  | none
  | opening (identifier : Identifier) (address : SocketAddrV6)
  | connection (c : Connection tls)

structure Delivery where
  hostId : Identifier
  srcPort : UInt16
  dstPort : UInt16
  data : Bytes
  deriving DecidableEq

structure Socket (tls : Tls) where
  acceptor : Acceptor
  connections : HashMap Identifier ℕ
  endpoints : ℕ → Endpoint tls
  deliverFrame : BoundedQueue Delivery 10
  receiver : Bool
  delivered : List (tls.Party × Delivery)

inductive SocketEvent (tls : Tls)
  | reader (e : Io.Event)
  | accept (e : AcceptEvent)
  | accepted (q : ℕ) (session : Session tls)
  | register (q : ℕ)
  | openConnection (identifier : Identifier) (address : SocketAddrV6)
  | openRead (q : ℕ) (datagram : Io.Datagram)
  | openFailed (q : ℕ)
  | opened (q : ℕ) (session : Session tls)
  | receive (q : ℕ) (datagram : Io.Datagram) (frames : List Frame)
  | connection (q : ℕ) (e : ConnectionEvent)
  | deliver (q : ℕ)
  | deliverClosed (q : ℕ)
  | release (q : ℕ)
  | take (delivery : Delivery)
  | dropReceiver
  | close

/-- The steps of the accept task up to the end of a handshake. -/
def AcceptEvent.handshaking : AcceptEvent → Bool
  | .take _ | .await _ | .read .. | .eof _ | .abandon _ | .ended => true
  | _ => false

def Endpoint.isOpening : Endpoint tls → Bool
  | .opening .. => true
  | _ => false

def Endpoint.satisfies (p : Connection tls → Prop) : Endpoint tls → Prop
  | .connection c => p c
  | _ => False

instance (p : Connection tls → Prop) [DecidablePred p] (endpoint : Endpoint tls) :
    Decidable (endpoint.satisfies p) := by
  cases endpoint <;> dsimp only [Endpoint.satisfies] <;> infer_instance

theorem Endpoint.satisfies_iff {p : Connection tls → Prop} {endpoint : Endpoint tls} :
    endpoint.satisfies p ↔ ∃ c, endpoint = .connection c ∧ p c := by
  cases endpoint <;> simp [satisfies]

def Endpoint.map (f : Connection tls → Connection tls) : Endpoint tls → Endpoint tls
  | .connection c => .connection (f c)
  | endpoint => endpoint

def Connection.delivery (c : Connection tls) : Option Delivery :=
  match c.readTask with
  | .sendingData srcPort dstPort data => some ⟨c.remoteId, srcPort, dstPort, data⟩
  | _ => none

namespace Socket

def new (tls : Tls) : Socket tls := ⟨.new, ∅, fun _ => .none, .empty, true, []⟩

def io (s : Socket tls) : Io.Socket := s.acceptor.io

def updateEndpoint (s : Socket tls) (q : ℕ) (endpoint : Endpoint tls) : Socket tls :=
  { s with endpoints := Function.update s.endpoints q endpoint }

def updateConnection (s : Socket tls) (q : ℕ) (f : Connection tls → Connection tls) :
    Socket tls :=
  s.updateEndpoint q ((s.endpoints q).map f)

def getConnection (s : Socket tls) (identifier : Identifier) : Option ℕ :=
  s.connections.lookup identifier

end Socket

def SocketEvent.onAcceptor : SocketEvent tls → Option AcceptEvent
  | .reader e => some (.io e)
  | .accept e => some e
  | .accepted q _ => some (.finish q)
  | .register q => some (.register q)
  | .openConnection _ address => some (.io (.connect (.v6 address)))
  | .openRead q d => some (.io (.read q d))
  | .openFailed q => some (.io (.drop q))
  | .receive q d _ => some (.io (.read q d))
  | .release q => some (.io (.drop q))
  | .close => some (.io .close)
  | _ => none

namespace Socket

/-- What an event needs apart from what it does at the accept task and the demultiplexer. -/
def admits (s : Socket tls) : SocketEvent tls → Prop
  | .reader e => e.ofReadTask = true
  | .accept e => e.handshaking = true
  | .accepted _ session => (idFromConnection session).isSome = true
  | .openRead q _ | .openFailed q | .opened q _ => (s.endpoints q).isOpening = true
  | .receive q _ _ => (s.endpoints q).satisfies fun c => c.readTask = .reading ∧ c.decoded = []
  | .connection q e => (s.endpoints q).satisfies fun c => c.enabled e
  | .deliver q => s.receiver = true ∧ s.deliverFrame.full = false ∧
      (s.endpoints q).satisfies fun c => c.delivery.isSome = true
  | .deliverClosed q => s.receiver = false ∧
      (s.endpoints q).satisfies fun c => c.delivery.isSome = true
  | .release q => (s.endpoints q).satisfies fun c =>
      c.stream = true ∧ c.readTask = .ended ∧ c.writeTask = .ended
  | .take d => s.receiver = true ∧ s.deliverFrame.items.head? = some d
  | .dropReceiver => s.receiver = true
  | .register _ | .openConnection .. | .close => True

instance (s : Socket tls) (e : SocketEvent tls) : Decidable (s.admits e) := by
  cases e <;> dsimp only [admits] <;> infer_instance

def enabled (s : Socket tls) (e : SocketEvent tls) : Prop :=
  s.admits e ∧ e.onAcceptor.elim True s.acceptor.enabled

instance (s : Socket tls) (e : SocketEvent tls) : Decidable (s.enabled e) := by
  unfold enabled
  cases e <;> dsimp only [SocketEvent.onAcceptor, Option.elim] <;> infer_instance

/-- The send of `spawn_read_task` into the data sink, followed by the next turn of its loop. -/
def deliver (s : Socket tls) (q : ℕ) : Socket tls :=
  match s.endpoints q with
  | .connection c =>
    match c.delivery with
    | some d =>
      { s.updateConnection q fun c => { c with readTask := .reading } with
        deliverFrame := (s.deliverFrame.push d).getD s.deliverFrame
        delivered := s.delivered ++ [(c.session.peer, d)] }
    | none => s
  | _ => s

/-- The end of a handshake of the accept task: its connection gets its tasks. -/
def accepted (s : Socket tls) (q : ℕ) (session : Session tls) : Socket tls :=
  match idFromConnection session with
  | some id => s.updateEndpoint q (.connection (.fromTlsStream session id))
  | none => s

/-- The end of a handshake of `open_connection`: the connection bears the identifier that was
asked for. -/
def opened (s : Socket tls) (q : ℕ) (session : Session tls) : Socket tls :=
  match s.endpoints q with
  | .opening identifier _ =>
    s.updateEndpoint q (.connection (.fromTlsStream session identifier))
  | _ => s

def register (s : Socket tls) (q : ℕ) : Socket tls :=
  match s.endpoints q with
  | .connection c => { s with connections := s.connections.insert c.remoteId q }
  | _ => s

/-- The effect of an event apart from what it does at the accept task and the demultiplexer. -/
def effect (s : Socket tls) : SocketEvent tls → Socket tls
  | .reader _ | .accept _ | .openRead .. => s
  | .accepted q session => s.accepted q session
  | .register q => s.register q
  | .openConnection identifier address =>
    s.updateEndpoint s.io.nextQueue (.opening identifier address)
  | .openFailed q => s.updateEndpoint q .none
  | .opened q session => s.opened q session
  | .receive q _ frames => s.updateConnection q fun c => { c with decoded := frames }
  | .connection q e => s.updateConnection q fun c => c.next e
  | .deliver q => s.deliver q
  | .deliverClosed q => s.updateConnection q fun c => { c with readTask := .ended }
  | .release q => s.updateConnection q fun c => { c with stream := false }
  | .take _ =>
    { s with deliverFrame := (s.deliverFrame.pop.map Prod.snd).getD s.deliverFrame }
  | .dropReceiver => { s with receiver := false, deliverFrame := .empty }
  | .close => { s with connections := ∅ }

def next (s : Socket tls) (e : SocketEvent tls) : Socket tls :=
  { s.effect e with acceptor := e.onAcceptor.elim s.acceptor s.acceptor.next }

end Socket

def socketMachine (tls : Tls) : Machine (Socket tls) (SocketEvent tls) :=
  guarded (· = Socket.new tls) Socket.enabled Socket.next

end Uip.Transport
