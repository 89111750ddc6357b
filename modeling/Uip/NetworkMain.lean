import Uip.DaemonTasks

/-!
# Opening sockets and publishing their addresses

The main task of the network calls `open_new_sockets` whenever the addresses may have changed: it
closes the sockets of addresses that are gone, opens sockets for new ones and then queues the own
peer record on the connections that the sockets have registered. A relay task does so for the
connections that it opens. `queued` records what they have queued last; no step reads it.
-/
namespace Uip
open TransitionSystem Transport

variable {tls : Tls}

/-- Where the main task stands; it holds the addresses to be closed and opened, and then the record,
the sockets and the connections of one socket to be sent to. -/
inductive MainPhase
  | idle
  | closing (stale addresses : List SocketAddrV6)
  | opening (addresses : List SocketAddrV6)
  | publishing (peer : Peer) (sockets : List ℕ) (connections : List (ℕ × ℕ))
  deriving DecidableEq

/-- `first` is the number of the first task that the last call of `open_new_sockets` could spawn. -/
structure NetworkMain (tls : Tls) where
  daemon : Daemon tls
  phase : MainPhase
  first : ℕ
  queued : ℕ → ℕ → Option Bytes

inductive MainEvent (tls : Tls)
  | daemon (e : DaemonEvent tls)
  | discover (addresses : List SocketAddrV6)
  | closeStale (address : SocketAddrV6) (k : ℕ) (stale addresses : List SocketAddrV6)
  | select (addresses : List SocketAddrV6)
  | openSocket (address : SocketAddrV6) (addresses : List SocketAddrV6)
  | openFailed (address : SocketAddrV6) (addresses : List SocketAddrV6)
  | publish
  | readConnections (peer : Peer) (k : ℕ) (sockets : List ℕ)
  | sendPeerInfo (peer : Peer) (sockets : List ℕ) (k q : ℕ) (connections : List (ℕ × ℕ))
    (data : Bytes)
  | sendFailed (peer : Peer) (sockets : List ℕ) (k q : ℕ) (connections : List (ℕ × ℕ))
  | finish (peer : Peer)

def DaemonEvent.ofMain : DaemonEvent tls → Bool
  | .openSocket _ | .closeSocket .. | .connectToRelays _ => true
  | _ => false

/-- What an event does at the daemon. -/
def MainEvent.onDaemon : MainEvent tls → Option (DaemonEvent tls)
  | .daemon e => some e
  | .closeStale address k _ _ => some (.closeSocket address k)
  | .openSocket address _ => some (.openSocket address)
  | .sendPeerInfo _ _ k q _ data => some (.socket k (.connection q (.send (.data 0 0 data))))
  | _ => none

def Loop.isRelays : Loop → Bool
  | .relays .. => true
  | _ => false

def Transport.Socket.registeredConnections (s : Socket tls) : List ℕ :=
  s.connections.entries.map Sigma.snd

namespace NetworkMain

variable (pack : MessagePack)

def new (tls : Tls) (network : NetworkState) : NetworkMain tls :=
  ⟨.new tls network, .idle, 0, fun _ _ => none⟩

def ownRecord (s : NetworkMain tls) : Option Bytes :=
  NetworkState.sendPeerInfo pack s.daemon.myPeerInformation

def admits (s : NetworkMain tls) : MainEvent tls → Prop
  | .daemon e => e.ofMain = false
  | .discover _ => s.phase = .idle
  | .closeStale address _ stale addresses => s.phase = .closing (address :: stale) addresses
  | .select addresses => s.phase = .closing [] addresses
  | .openSocket address addresses | .openFailed address addresses =>
      s.phase = .opening (address :: addresses)
  | .publish => s.phase = .opening []
  | .readConnections peer k sockets => s.phase = .publishing peer (k :: sockets) []
  | .sendPeerInfo peer sockets k q connections data =>
      s.phase = .publishing peer sockets ((k, q) :: connections) ∧
      NetworkState.sendPeerInfo pack peer = some data
  | .sendFailed peer sockets k q connections =>
      s.phase = .publishing peer sockets ((k, q) :: connections) ∧
      (NetworkState.sendPeerInfo pack peer = none ∨
        ((s.daemon.table k).endpoints q).satisfies fun c => c.writeTask = .ended)
  | .finish peer => s.phase = .publishing peer [] []

instance (s : NetworkMain tls) (e : MainEvent tls) : Decidable (s.admits pack e) := by
  cases e <;> dsimp only [admits] <;> infer_instance

def enabled (s : NetworkMain tls) (e : MainEvent tls) : Prop :=
  s.admits pack e ∧ e.onDaemon.elim True (s.daemon.enabled pack)

instance (s : NetworkMain tls) (e : MainEvent tls) : Decidable (s.enabled pack e) := by
  unfold enabled
  cases e <;> dsimp only [MainEvent.onDaemon, Option.elim] <;> infer_instance

/-- `discover_addresses`, with the port of the daemon, and the stale addresses. -/
def discover (s : NetworkMain tls) (addresses : List SocketAddrV6) : NetworkMain tls :=
  let addresses := addresses.map fun address => { address with port := s.daemon.network.port }
  let stale := s.daemon.sockets.keys.filter fun address => decide (address ∉ addresses)
  { s with phase := .closing stale addresses, first := s.daemon.nextTask }

def nextPhase (s : NetworkMain tls) : MainEvent tls → MainPhase
  | .daemon _ => s.phase
  | .discover addresses => (s.discover addresses).phase
  | .closeStale _ _ stale addresses => .closing stale addresses
  | .select addresses => .opening (addresses.filter fun address =>
      (s.daemon.sockets.lookup address).isNone)
  | .openSocket _ addresses | .openFailed _ addresses => .opening addresses
  | .publish => .publishing s.daemon.myPeerInformation s.daemon.openSockets []
  | .readConnections peer k sockets =>
    .publishing peer sockets ((s.daemon.table k).registeredConnections.map fun q => (k, q))
  | .sendPeerInfo peer sockets _ _ connections _ | .sendFailed peer sockets _ _ connections =>
    .publishing peer sockets connections
  | .finish _ => .idle

/-- The own record that an event queues on a connection. -/
def queues (s : NetworkMain tls) : MainEvent tls → Option (ℕ × ℕ × Bytes)
  | .daemon (.send n k q (.data _ _ data)) =>
    if (s.daemon.tasks n).loop.isRelays then some (k, q, data) else none
  | .sendPeerInfo _ _ k q _ data => some (k, q, data)
  | _ => none

def record (queued : ℕ → ℕ → Option Bytes) (x : ℕ × ℕ × Bytes) : ℕ → ℕ → Option Bytes :=
  Function.update queued x.1 (Function.update (queued x.1) x.2.1 (some x.2.2))

def next (s : NetworkMain tls) (e : MainEvent tls) : NetworkMain tls where
  daemon := e.onDaemon.elim s.daemon (s.daemon.next pack)
  phase := s.nextPhase e
  first := match e with
    | .discover _ => s.daemon.nextTask
    | _ => s.first
  queued := (s.queues e).elim s.queued (record s.queued)

/-- `open_new_sockets` has returned, and the relay tasks that it spawned have ended. -/
def Finished (s : NetworkMain tls) : Prop :=
  s.phase = .idle ∧ ∀ n < s.daemon.nextTask, s.first ≤ n →
    (s.daemon.tasks n).loop.isRelays = true → (s.daemon.tasks n).returned

def Live (s : NetworkMain tls) (k q : ℕ) : Prop :=
  k ∈ s.daemon.openSockets ∧ ((s.daemon.table k).endpoints q).satisfies Connection.alive

/-- The own record that was queued last on the connection is the current one. -/
def Informed (s : NetworkMain tls) (k q : ℕ) : Prop :=
  ∃ data, s.ownRecord pack = some data ∧ s.queued k q = some data

/-- A relay task is about to queue the current record on the connection. -/
def Announces (s : NetworkMain tls) (k q : ℕ) : Prop :=
  ∃ n data, (s.daemon.tasks n).loop.isRelays = true ∧
    (s.daemon.tasks n).phase = .sending k q (some (.data 0 0 data)) ∧
    s.ownRecord pack = some data

def Unread (s : NetworkMain tls) (k : ℕ) : Prop :=
  match s.phase with
  | .idle => False
  | .closing .. | .opening _ => True
  | .publishing _ sockets _ => k ∈ sockets

/-- The map of the socket's connections has been read, and `open_new_sockets` has not finished. -/
def Settling (s : NetworkMain tls) (k : ℕ) : Prop :=
  k ∈ s.daemon.openSockets ∧ ¬ s.Unread k ∧ ¬ s.Finished

/-- Each live connection is registered when the map is read, unless it has the current record; after
that none is accepted, and only relay tasks open any and queue the current record on them. -/
def reaches (s : NetworkMain tls) : MainEvent tls → Prop
  | .daemon (.socket k (.accepted ..)) => ¬ s.Settling k
  | .daemon (.opened n k _ _ _) => s.Settling k →
      (s.daemon.tasks n).loop.isRelays = true ∧ (s.ownRecord pack).isSome = true
  | .daemon (.send n k _ frame) => s.Settling k → (s.daemon.tasks n).loop.isRelays = true →
      ∃ data, frame = .data 0 0 data ∧ s.ownRecord pack = some data
  | .publish => (s.ownRecord pack).isSome = true
  | .readConnections _ k _ => ∀ q, s.Live k q →
      q ∈ (s.daemon.table k).registeredConnections ∨ s.Informed pack k q ∨ s.Announces pack k q
  | _ => True

/-- When `open_new_sockets` finishes, no relay task of an earlier call is about to send. -/
def Reaches (s : NetworkMain tls) (e : MainEvent tls) : Prop :=
  s.reaches pack e ∧ (¬ s.Finished → (s.next pack e).Finished →
    ∀ n < s.first, ∀ k q message, (s.daemon.tasks n).loop.isRelays = true →
      (s.daemon.tasks n).phase ≠ .sending k q message)

end NetworkMain

def networkMainMachine (tls : Tls) (pack : MessagePack) :
    Machine (NetworkMain tls) (MainEvent tls) :=
  guarded (fun s => ∃ network, s = .new tls network) (NetworkMain.enabled pack)
    (NetworkMain.next pack)

end Uip
