import Uip.DaemonInvariant
import Uip.TransportJam

/-! Whether the processing of control messages can wait for itself. The deliver task of a socket
may await a handshake on that socket; meanwhile nothing drains the socket's data channel, and
once the read tasks are jammed no datagram of the handshake is delivered. -/
namespace Uip
open TransitionSystem Transport

variable {tls : Tls} {pack : MessagePack}

namespace Daemon

variable {d : Daemon tls} {e : DaemonEvent tls} {k : ℕ}

/-- The deliver task of the socket awaits a handshake that `get_connection` started on it. -/
def DeliverAwaits (d : Daemon tls) (k : ℕ) : Prop :=
  ∃ n q message, d.tasks n = ⟨.deliver k, .handshake k q message⟩

def DeliverWait (d : Daemon tls) (k : ℕ) : Prop := d.DeliverAwaits k ∧ (d.table k).Jammed

/-- A deliver task starts no handshake on its own socket while this is jammed, and no step
completes a jam of a socket whose deliver task awaits a handshake on it. -/
def avoidsJam (d : Daemon tls) : DaemonEvent tls → Prop
  | .choose n k _ _ _ => (d.tasks n).loop = .deliver k → ¬ (d.table k).Jammed
  | .socket k e => d.DeliverAwaits k → (d.table k).avoidsJam e
  | _ => True

/-- A deliver task awaits a handshake from the step on that starts it. -/
theorem awaiting_of_next {n q : ℕ} {message : Option Frame}
    (h : (d.next pack e).tasks n = ⟨.deliver k, .handshake k q message⟩) :
    d.tasks n = ⟨.deliver k, .handshake k q message⟩ ∨
      ∃ host address, e = .choose n k host address message ∧ (d.tasks n).loop = .deliver k := by
  have hstep : TaskStep d e n ((d.next pack e).tasks n) := next_task d e n
  generalize (d.next pack e).tasks n = task at hstep h
  cases hstep with
  | same => exact .inl h
  | settles task quiet =>
    rw [h] at quiet
    cases quiet
  | missing => cases (Task.mk.inj h).2
  | choose j host address message' event =>
    obtain ⟨hloop, hphase⟩ := Task.mk.inj h
    obtain ⟨rfl, _, rfl⟩ := Phase.handshake.inj hphase
    exact .inr ⟨host, address, event, hloop⟩
  | relay => cases (Task.mk.inj h).1

theorem deliverAwaits_of_next (h : (d.next pack e).DeliverAwaits k) : d.DeliverAwaits k ∨
    ∃ n host address message, e = .choose n k host address message ∧
      (d.tasks n).loop = .deliver k := by
  obtain ⟨n, q, message, hn⟩ := h
  rcases awaiting_of_next hn with hold | ⟨host, address, rfl, hloop⟩
  · exact .inl ⟨n, q, message, hold⟩
  · exact .inr ⟨n, host, address, message, rfl, hloop⟩

theorem socket_of_not_avoidsJam (he : d.enabled pack e) {se : SocketEvent tls}
    (hx : e.onSocket = some (k, se)) (hg : ¬ (d.table k).avoidsJam se) : e = .socket k se := by
  cases e with
  | socket j se' =>
    obtain ⟨rfl, rfl⟩ := Prod.mk.inj (Option.some.inj hx)
    rfl
  | closeSocket | take | panicked | choose | relayOpen | opened | openFailed | send =>
    obtain ⟨rfl, rfl⟩ := Prod.mk.inj (Option.some.inj hx)
    exact absurd trivial hg
  | _ => cases hx

theorem deliverWait_of_next (hw : d.WellFormed) (he : d.enabled pack e) (hg : d.avoidsJam e)
    (ht : (d.next pack e).DeliverWait k) : d.DeliverWait k := by
  obtain ⟨hawaits, hjam⟩ := ht
  have hsource : d.DeliverAwaits k → (d.table k).Jammed := by
    intro hold
    rcases next_table he k with hs | ⟨se, hx, hen, hs⟩ | ⟨_, _, _, hs⟩
    · rwa [hs] at hjam
    · rw [hs] at hjam
      refine Socket.jammed_of_next (hw.owners k) hen hjam ?_
      by_contra hnot
      obtain rfl := socket_of_not_avoidsJam he hx hnot
      exact hnot (hg hold)
    · rw [hs] at hjam
      exact absurd hjam Socket.not_jammed_new
  rcases deliverAwaits_of_next hawaits with hold | ⟨n, host, address, message, rfl, hloop⟩
  · exact ⟨hold, hsource hold⟩
  · have hs : (d.next pack (.choose n k host address message)).table k =
        (d.table k).next (.openConnection host address) := Function.update_self ..
    rw [hs] at hjam
    exact absurd (Socket.jammed_of_next (hw.owners k) he.2 hjam trivial) (hg hloop)

theorem avoidsJam_of_next (hw : d.WellFormed) (he : d.enabled pack e)
    (ht : ∀ k, ¬ (d.next pack e).DeliverWait k) : d.avoidsJam e := by
  cases e with
  | socket k se =>
    rintro ⟨n, q, message, hn⟩
    by_contra hg
    have hs : (d.next pack (.socket k se)).table k = (d.table k).next se :=
      Function.update_self ..
    refine ht k ⟨⟨n, q, message, hn⟩, ?_⟩
    rw [hs]
    exact Socket.jammed_next he.2 hg
  | choose n k host address message =>
    intro hloop hjam
    have hs : (d.next pack (.choose n k host address message)).table k =
        (d.table k).next (.openConnection host address) := Function.update_self ..
    refine ht k ⟨⟨n, (d.table k).io.nextQueue, message, ?_⟩, ?_⟩
    · simp [Daemon.next, effect, setPhase, setTask, hloop]
    · rw [hs]
      exact hjam.openConnection (hw.owners k) host address
  | _ => trivial

/-- The deliver tasks make no connections. -/
def DeliversOnly (d : Daemon tls) : Prop :=
  ∀ n k, (d.tasks n).loop = .deliver k → (d.tasks n).phase.connects = false

/-- Where a deliver task looks up a host to reply to, it finds a connection. -/
def repliesRegistered (d : Daemon tls) : DaemonEvent tls → Prop
  | .missing n _ _ => ∀ k, (d.tasks n).loop ≠ .deliver k
  | _ => True

theorem DeliversOnly.next (h : d.DeliversOnly) (he : d.enabled pack e)
    (hg : d.repliesRegistered e) : (d.next pack e).DeliversOnly := by
  intro n k hloop
  have hstep : TaskStep d e n ((d.next pack e).tasks n) := next_task d e n
  generalize (d.next pack e).tasks n = task at hstep hloop
  cases hstep with
  | same => exact h n k hloop
  | settles task quiet => exact quiet
  | missing host message event =>
    subst event
    exact absurd hloop (hg k)
  | choose j host address message event =>
    subst event
    have hold := h n k hloop
    rw [he.1.1] at hold
    cases hold
  | relay => cases hloop

theorem DeliversOnly.not_deliverWait (h : d.DeliversOnly) : ¬ d.DeliverWait k := by
  rintro ⟨⟨n, q, message, hn⟩, _⟩
  have hold := h n k (by rw [hn])
  rw [hn] at hold
  cases hold

theorem not_deliverWait_new (network : NetworkState) : ¬ (new tls network).DeliverWait k := by
  rintro ⟨⟨n, q, message, hn⟩, _⟩
  cases hn

end Daemon

/-- No deliver task ever waits for itself in a run if and only if no step of it makes the last
of the three tasks wait while the other two do. -/
theorem deliverWait_iff (r : Run (daemonMachine tls pack)) :
    (∀ x ∈ r.transitions, ∀ k, ¬ x.target.DeliverWait k) ↔
      ∀ x ∈ r.transitions, x.source.avoidsJam x.label := by
  apply r.guarded_iff (I := Daemon.WellFormed) (P := fun d => ∀ k, ¬ d.DeliverWait k)
  · rintro d ⟨network, rfl⟩
    exact ⟨.new network, fun k => Daemon.not_deliverWait_new network⟩
  · exact fun d e hd he => hd.next he
  · intro d e hd hwait he
    constructor
    · exact Daemon.avoidsJam_of_next hd he
    · intro hg k ht
      exact hwait k (Daemon.deliverWait_of_next hd he hg ht)

/-- As long as the deliver tasks find a connection for every reply, none waits for itself. -/
theorem deliver_never_waits (r : Run (daemonMachine tls pack))
    (h : ∀ x ∈ r.transitions, x.source.repliesRegistered x.label) :
    ∀ x ∈ r.transitions, ∀ k, ¬ x.target.DeliverWait k := by
  have hstart : r.start.DeliversOnly := by
    obtain ⟨network, hnew⟩ := r.starts
    rw [hnew]
    intro n k hloop
    rfl
  have hinv := r.path.guarded_invariant (P := Daemon.DeliversOnly)
    (G := Daemon.repliesRegistered) (fun d e hd hg he => hd.next he hg) hstart h
  intro x hx k
  exact (hinv.2 x hx).2.not_deliverWait

section FullChannel

/-- The daemon knows the address of one host and a record of the other. -/
def waitingNetwork : NetworkState :=
  ⟨⟨Vector.replicate 32 3⟩, (PeerInformationBase.new.addPeerAddress digestOne hostAddr).addPeer
    digestTwo ⟨digestTwo, [], []⟩, [], 65041⟩

def waitingPack : MessagePack := .ofTable [writeRequest digestTwo, writePeerInfo digestTwo []]

def floodAddr : SocketAddr := .v6 ⟨8, 65041, 0, 0⟩

def forwarded (number : ℕ) (remote : SocketAddr) (bytes : Bytes) (q : ℕ) (connection : Bool) :
    List (DaemonEvent keyTls) :=
  [.socket 0 (.reader (.datagram bytes remote)),
    .socket 0 (.reader (.send ⟨number, remote, bytes⟩ q connection)),
    .socket 0 (.reader (.insert remote q connection))]

/-- `send_frame` opens a connection to the first host, the second host is accepted. -/
def connectingEvents : List (DaemonEvent keyTls) :=
  [.openSocket localAddr, .sendFrame digestOne 5 6 [], .missing 2 digestOne (some (.data 5 6 [])),
    .choose 2 0 digestOne hostAddr (some (.data 5 6 []))] ++
  forwarded 0 (.v6 hostAddr) [22] 0 false ++
  [.socket 0 (.openRead 0 ⟨0, .v6 hostAddr, [22]⟩),
    .opened 2 0 0 (keySession [1]) (some (.data 5 6 []))] ++
  forwarded 1 floodAddr [22] 1 true ++
  [.socket 0 (.reader (.offer 1)), .socket 0 (.accept (.take 1)), .socket 0 (.accept (.await 1)),
    .socket 0 (.accept (.read 1 ⟨1, floodAddr, [22]⟩)), .socket 0 (.accepted 1 (keySession [2])),
    .socket 0 (.register 1)]

/-- The first host asks for the record of the second, and `get_connection` finds no connection
to send the reply over. -/
def askingEvents : List (DaemonEvent keyTls) :=
  let request : Bytes := (writeRequest digestTwo).2
  let reply : Option Frame := some (.data 0 0 (writePeerInfo digestTwo []).2)
  forwarded 2 (.v6 hostAddr) [23] 0 false ++
  [.socket 0 (.receive 0 ⟨2, .v6 hostAddr, [23]⟩ [.data 0 0 request]),
    .socket 0 (.connection 0 (.frame (.data 0 0 request))), .socket 0 (.deliver 0),
    .take 1 0 ⟨digestOne, 0, 0, request⟩, .process 1 ⟨digestOne, 0, 0, request⟩,
    .missing 1 digestOne reply, .choose 1 0 digestOne hostAddr reply]

/-- The second host sends eleven frames in one datagram, and eleven datagrams more. -/
def floodingEvents : List (DaemonEvent keyTls) :=
  forwarded 3 floodAddr [23] 1 false ++
  [.socket 0 (.receive 1 ⟨3, floodAddr, [23]⟩ (List.replicate 11 (.data 7 8 [])))] ++
  ((List.range 10).flatMap fun _ =>
    [.socket 0 (.connection 1 (.frame (.data 7 8 []))), .socket 0 (.deliver 1)]) ++
  [.socket 0 (.connection 1 (.frame (.data 7 8 [])))] ++
  ((List.range 10).flatMap fun n => forwarded (n + 4) floodAddr [23] 1 false) ++
  [.socket 0 (.reader (.datagram [23] floodAddr))]

theorem deliver_waits_for_itself : ∃ d : Daemon keyTls,
    Reachable (daemonMachine keyTls waitingPack) d ∧ d.DeliverWait 0 := by
  obtain ⟨d, hd, hp⟩ := exec_reachable (M := daemonMachine keyTls waitingPack)
    ⟨waitingNetwork, rfl⟩ (connectingEvents ++ askingEvents ++ floodingEvents)
    (p := fun d => decide (d.tasks 1 = ⟨.deliver 0, .handshake 0 2
        (some (.data 0 0 (writePeerInfo digestTwo []).2))⟩ ∧
      (d.table 0).deliverFrame.full = true ∧
      ((d.table 0).endpoints 1).satisfies (fun c => c.delivery.isSome = true) ∧
      (d.table 0).io.readTask.sendsTo = some 1 ∧
      ((d.table 0).io.queues 1).datagrams.full = true)) (by decide +kernel)
  obtain ⟨htask, hchannel, hdata, hread, hfull⟩ := of_decide_eq_true hp
  exact ⟨d, hd, ⟨1, 2, _, htask⟩, hchannel, 1, hdata, hread, hfull⟩

end FullChannel

end Uip
