import Uip.DaemonTasks
import Uip.DaemonWait

/-!
# The forwarding loop from the clients to the network

One loop passes the frames of the clients to the network, one after another: it spawns no task for
a call of `send_frame`, but awaits it. `current` is the task in which the last call stands, and the
host that its frame is for.
-/
namespace Uip
open TransitionSystem Transport

variable {tls : Tls} {pack : MessagePack}

structure UnixToNetwork (tls : Tls) where
  daemon : Daemon tls
  unixSource : BoundedQueue Delivery 5
  current : Option (ℕ × Identifier)

inductive UnixToNetworkEvent (tls : Tls)
  | daemon (e : DaemonEvent tls)
  | enqueue (tuple : Delivery)
  | forward (tuple : Delivery)

def DaemonEvent.ofLoop : DaemonEvent tls → Bool
  | .sendFrame .. => true
  | _ => false

namespace Transport

theorem Connection.accepts_of_next {c : Connection tls} {e : ConnectionEvent} (he : c.enabled e)
    (h : (c.next e).accepts) : c.accepts ∨ ∃ f, e = .takeFrame f := by
  cases e with
  | takeFrame f => exact .inr ⟨f, rfl⟩
  | pong | ping => exact .inl he.2
  | send f => exact .inl he
  | writeError | writeClosed => exact absurd rfl h.1
  | written f =>
    have hw : c.writeTask = .sending f := he
    exact .inl ⟨by simp [hw], h.2⟩
  | _ => exact .inl h

theorem Connection.accepts_takeFrame {c : Connection tls} {f : Frame}
    (he : c.enabled (.takeFrame f)) : (c.next (.takeFrame f)).accepts :=
  ⟨by simp [Connection.next], BoundedQueue.pop_full he.2⟩

end Transport

namespace Daemon

variable {d : Daemon tls} {e : DaemonEvent tls} {x : Identifier}

/-- A live connection to the host is registered, and there is room in its sink. -/
def Serves (d : Daemon tls) (x : Identifier) : Prop :=
  ∃ k ∈ d.openSockets, ∃ q ∈ (d.table k).getConnection x,
    ((d.table k).endpoints q).satisfies fun c => c.alive ∧ c.accepts

/-- A live connection to the host is registered, or its write task takes a frame from the sink. -/
def restores (d : Daemon tls) (x : Identifier) : DaemonEvent tls → Prop
  | .socket k (.register q) => k ∈ d.openSockets ∧
      ((d.table k).endpoints q).satisfies fun c => c.remoteId = x ∧ c.alive ∧ c.accepts
  | .socket k (.connection q (.takeFrame _)) => k ∈ d.openSockets ∧
      (d.table k).getConnection x = some q ∧ ((d.table k).endpoints q).satisfies Connection.alive
  | _ => False

theorem Serves.of_next (hw : d.WellFormed) (he : d.enabled pack e)
    (h : (d.next pack e).Serves x) : d.Serves x ∨ d.restores x e := by
  obtain ⟨k, hk, q, hq, hsat⟩ := h
  obtain ⟨c', hc', halive, haccepts⟩ := Endpoint.satisfies_iff.mp hsat
  have hopen : k ∈ d.openSockets := by
    rcases openSockets_of_next hk with hold | hnew
    · exact hold
    · rw [hnew] at hc'
      cases hc'
  rcases next_table he k with hs | ⟨se, hx, hen, hs⟩ | ⟨_, _, _, hs⟩
  · rw [hs] at hq hsat
    exact .inl ⟨k, hopen, q, hq, hsat⟩
  · rw [hs] at hq hc'
    rcases Socket.next_connections hen x with hsame | ⟨p, c, rfl, hc, hid, hp⟩ | ⟨rfl, hnone⟩
    · have hold : (d.table k).getConnection x = some q := hsame.symm.trans hq
      obtain ⟨c, hc, _⟩ := (hw.owners k).registered x q hold
      obtain ⟨c'', hc'', hkeeps⟩ := (hw.owners k).next_connection hen hc
      obtain rfl : c'' = c' := Endpoint.connection.inj (hc''.symm.trans hc')
      have halive' : c.alive := hkeeps.alive halive
      rcases (hw.owners k).sink_next hen hc hc'' with ⟨hsink, hwrite⟩ | ⟨ce, rfl, hce, rfl⟩
      · refine .inl ⟨k, hopen, q, hold, Endpoint.satisfies_iff.mpr ⟨c, hc, halive', ?_⟩⟩
        exact ⟨hwrite ▸ haccepts.1, hsink ▸ haccepts.2⟩
      · rcases Connection.accepts_of_next hce haccepts with hroom | ⟨f, rfl⟩
        · exact .inl ⟨k, hopen, q, hold, Endpoint.satisfies_iff.mpr ⟨c, hc, halive', hroom⟩⟩
        · obtain rfl := onSocket_internal hx rfl (by simp)
          exact .inr ⟨hopen, hold, Endpoint.satisfies_iff.mpr ⟨c, hc, halive'⟩⟩
    · obtain rfl := onSocket_internal hx rfl (by simp)
      obtain rfl : p = q := Option.some.inj (hp.symm.trans hq)
      have hsame : ((d.table k).next (.register p)).endpoints p = (d.table k).endpoints p := by
        simp only [Socket.next_endpoints, Socket.effect, Socket.register]
        split <;> rfl
      obtain rfl : c = c' := Endpoint.connection.inj (hc.symm.trans (hsame.symm.trans hc'))
      exact .inr ⟨hopen, Endpoint.satisfies_iff.mpr ⟨c, hc, hid, halive, haccepts⟩⟩
    · cases hnone.symm.trans hq
  · rw [hs] at hc'
    cases hc'

theorem Serves.of_restores (he : d.enabled pack e) (h : d.restores x e) :
    (d.next pack e).Serves x := by
  cases e with
  | socket k se =>
    have htable : (d.next pack (.socket k se)).table k = (d.table k).next se :=
      Function.update_self ..
    cases se with
    | register q =>
      obtain ⟨hopen, hq⟩ := h
      obtain ⟨c, hc, hid, hserves⟩ := Endpoint.satisfies_iff.mp hq
      refine ⟨k, hopen, q, ?_, ?_⟩
      · rw [htable]
        simp only [Socket.getConnection, Socket.next, Socket.effect, Socket.register, hc]
        rw [HashMap.lookup_insert_if, if_pos hid.symm]
        rfl
      · rw [htable]
        simp only [Socket.next_endpoints, Socket.effect, Socket.register, hc]
        exact hserves
    | connection q ce =>
      cases ce with
      | takeFrame f =>
        obtain ⟨hopen, hlookup, hq⟩ := h
        obtain ⟨c, hc, halive⟩ := Endpoint.satisfies_iff.mp hq
        have hce : c.enabled (.takeFrame f) := by
          have hadmits := he.2.1
          simpa [Socket.admits, hc, Endpoint.satisfies] using hadmits
        refine ⟨k, hopen, q, ?_, ?_⟩
        · rw [htable]
          exact hlookup
        · rw [htable]
          simp only [Socket.next_endpoints, Socket.effect, Socket.updateConnection,
            Socket.updateEndpoint, Function.update_self, hc, Endpoint.map]
          exact ⟨⟨halive.1, by simp [Connection.next]⟩, Connection.accepts_takeFrame hce⟩
      | _ => exact h.elim
    | _ => exact h.elim
  | _ => exact h.elim

theorem serves_choose (hw : d.WellFormed) {n k : ℕ} {host : Identifier} {address : SocketAddrV6}
    {message : Option Frame} (he : d.enabled pack (.choose n k host address message)) :
    (d.next pack (.choose n k host address message)).Serves x ↔ d.Serves x := by
  refine ⟨fun h => (h.of_next hw he).resolve_right id, ?_⟩
  rintro ⟨j, hopen, q, hq, hsat⟩
  refine ⟨j, hopen, q, ?_⟩
  by_cases hj : j = k
  · subst hj
    have htable : (d.next pack (.choose n j host address message)).table j =
        (d.table j).next (.openConnection host address) := Function.update_self ..
    have hne : q ≠ (d.table j).io.nextQueue := by
      refine Nat.ne_of_lt ((hw.owners j).lt fun hnone => ?_)
      rw [hnone] at hsat
      exact hsat
    have hsame : ((d.table j).next (.openConnection host address)).endpoints q =
        (d.table j).endpoints q := Function.update_of_ne hne _ _
    rw [htable, hsame]
    exact ⟨hq, hsat⟩
  · have htable : (d.next pack (.choose n k host address message)).table j = d.table j :=
      Function.update_of_ne hj _ _
    rw [htable]
    exact ⟨hq, hsat⟩

end Daemon

namespace UnixToNetwork

variable {s : UnixToNetwork tls} {e : UnixToNetworkEvent tls}

def new (tls : Tls) (network : NetworkState) : UnixToNetwork tls := ⟨.new tls network, .empty, none⟩

def enabled (pack : MessagePack) (s : UnixToNetwork tls) : UnixToNetworkEvent tls → Prop
  | .daemon e => s.daemon.enabled pack e ∧ e.ofLoop = false
  | .enqueue _ => s.unixSource.full = false
  | .forward tuple => (∀ task ∈ s.current, (s.daemon.tasks task.1).phase = .idle) ∧
      s.unixSource.items.head? = some tuple

instance (s : UnixToNetwork tls) (e : UnixToNetworkEvent tls) : Decidable (s.enabled pack e) := by
  cases e <;> dsimp only [enabled] <;> infer_instance

def next (pack : MessagePack) (s : UnixToNetwork tls) :
    UnixToNetworkEvent tls → UnixToNetwork tls
  | .daemon e => { s with daemon := s.daemon.next pack e }
  | .enqueue tuple => { s with unixSource := (s.unixSource.push tuple).getD s.unixSource }
  | .forward tuple =>
    { daemon := s.daemon.next pack
        (.sendFrame tuple.hostId tuple.srcPort tuple.dstPort tuple.data)
      unixSource := (s.unixSource.pop.map Prod.snd).getD s.unixSource
      current := some (s.daemon.nextTask, tuple.hostId) }

/-- The loop awaits a handshake with the host. -/
def Awaits (s : UnixToNetwork tls) (y : Identifier) : Prop :=
  ∃ n k q message, s.current = some (n, y) ∧ (s.daemon.tasks n).phase = .handshake k q message

/-- No frame that could be sent to another host waits behind one for which a handshake is
awaited. -/
def Flows (s : UnixToNetwork tls) : Prop :=
  ∀ y, s.Awaits y → ∀ tuple ∈ s.unixSource.items, tuple.hostId ≠ y →
    ¬ s.daemon.Serves tuple.hostId

/-- While the loop awaits a handshake, no frame that could be sent to another host is queued, and
no host whose frames are queued gets a connection or room in it; and no handshake is started with
such a frame in the queue. -/
def KeepsFlow (s : UnixToNetwork tls) : UnixToNetworkEvent tls → Prop
  | .daemon (.choose n _ host _ _) => ∀ y, s.current = some (n, y) →
      ∀ tuple ∈ s.unixSource.items, tuple.hostId ≠ host → ¬ s.daemon.Serves tuple.hostId
  | .daemon e => ∀ y, s.Awaits y → ∀ tuple ∈ s.unixSource.items, tuple.hostId ≠ y →
      ¬ s.daemon.restores tuple.hostId e
  | .enqueue tuple => ∀ y, s.Awaits y → tuple.hostId ≠ y → ¬ s.daemon.Serves tuple.hostId
  | .forward _ => True

end UnixToNetwork

def unixToNetworkMachine (tls : Tls) (pack : MessagePack) :
    Machine (UnixToNetwork tls) (UnixToNetworkEvent tls) :=
  guarded (fun s => ∃ network, s = .new tls network) (UnixToNetwork.enabled pack)
    (UnixToNetwork.next pack)

def Phase.isFor (y : Identifier) : Phase → Prop
  | .lookup host _ | .connecting host _ => host = y
  | .handshake .. | .sending .. | .idle => True
  | .delivering _ | .ended => False

namespace UnixToNetwork

variable {s : UnixToNetwork tls} {e : UnixToNetworkEvent tls}

structure Sound (s : UnixToNetwork tls) : Prop where
  daemon : s.daemon.WellFormed
  current : ∀ n y, s.current = some (n, y) → n < s.daemon.nextTask ∧
    (s.daemon.tasks n).loop = .once ∧ (s.daemon.tasks n).phase.isFor y

theorem Sound.new (network : NetworkState) : (new tls network).Sound where
  daemon := .new network
  current n y h := by cases h

theorem Sound.call (h : s.Sound) {n : ℕ} {y : Identifier} (hn : s.current = some (n, y))
    {de : DaemonEvent tls} (he : s.daemon.enabled pack de) :
    s.daemon.CallStep de n ((s.daemon.next pack de).tasks n) := by
  obtain ⟨hlt, hloop, hfor⟩ := h.current n y hn
  refine Daemon.next_call he hloop hlt fun delivery hphase => ?_
  rw [hphase] at hfor
  exact hfor

theorem Sound.next (h : s.Sound) (he : s.enabled pack e) : (s.next pack e).Sound := by
  cases e with
  | daemon de =>
    refine ⟨h.daemon.next he.1, fun n y hn => ?_⟩
    obtain ⟨hlt, hloop, hfor⟩ := h.current n y hn
    have hstep := h.call hn he.1
    refine ⟨Nat.lt_of_lt_of_le hlt (s.daemon.nextTask_le de), ?_⟩
    change ((s.daemon.next pack de).tasks n).loop = _ ∧
      ((s.daemon.next pack de).tasks n).phase.isFor y
    generalize (s.daemon.next pack de).tasks n = task at hstep
    cases hstep with
    | same => exact ⟨hloop, hfor⟩
    | missing host message event =>
      subst event
      rw [he.1.1.1] at hfor
      exact ⟨rfl, hfor⟩
    | choose | sends | done => exact ⟨rfl, trivial⟩
  | enqueue tuple => exact ⟨h.daemon, h.current⟩
  | forward tuple =>
    have hcall : s.daemon.enabled pack
        (.sendFrame tuple.hostId tuple.srcPort tuple.dstPort tuple.data) := ⟨trivial, trivial⟩
    refine ⟨h.daemon.next hcall, fun n y hn => ?_⟩
    obtain ⟨rfl, rfl⟩ := Prod.mk.inj (Option.some.inj hn)
    have htask : (s.next pack (.forward tuple)).daemon.tasks s.daemon.nextTask =
        ⟨.once, .lookup tuple.hostId (some (.data tuple.srcPort tuple.dstPort tuple.data))⟩ :=
      Function.update_self ..
    rw [htask]
    exact ⟨Nat.lt_succ_self _, rfl, rfl⟩

/-- The loop awaits a handshake from the step on that starts it, and the handshake is with the host
of its frame. -/
theorem Sound.awaits_of_next (h : s.Sound) {de : DaemonEvent tls}
    (he : s.enabled pack (.daemon de)) {y : Identifier}
    (ha : (s.next pack (.daemon de)).Awaits y) : s.Awaits y ∨
      ∃ n k address message, s.current = some (n, y) ∧ de = .choose n k y address message := by
  obtain ⟨n, k, q, message, hn, hphase⟩ := ha
  have hn' : s.current = some (n, y) := hn
  have hstep := h.call hn' he.1
  change ((s.daemon.next pack de).tasks n).phase = _ at hphase
  generalize (s.daemon.next pack de).tasks n = task at hstep hphase
  cases hstep with
  | same => exact .inl ⟨n, k, q, message, hn', hphase⟩
  | choose k' host address message' event =>
    subst event
    have hfor := (h.current n y hn').2.2
    rw [he.1.1.1] at hfor
    obtain rfl : host = y := hfor
    exact .inr ⟨n, k', address, message', hn', rfl⟩
  | missing | sends | done => cases hphase

theorem Sound.flows_daemon (h : s.Sound) (hs : s.Flows) {de : DaemonEvent tls}
    (he : s.enabled pack (.daemon de))
    (hchoose : ∀ n k host address message, de ≠ .choose n k host address message)
    (hkeeps : ∀ y, s.Awaits y → ∀ tuple ∈ s.unixSource.items, tuple.hostId ≠ y →
      ¬ s.daemon.restores tuple.hostId de) : (s.next pack (.daemon de)).Flows := by
  intro y hy tuple htuple hne hserves
  have hawaits : s.Awaits y := by
    rcases h.awaits_of_next he hy with hold | ⟨n, k, address, message, _, rfl⟩
    · exact hold
    · exact absurd rfl (hchoose n k y address message)
  rcases Daemon.Serves.of_next h.daemon he.1 hserves with hold | hrestores
  · exact hs y hawaits tuple htuple hne hold
  · exact hkeeps y hawaits tuple htuple hne hrestores

theorem Sound.flows_choose (h : s.Sound) (hs : s.Flows) {n k : ℕ} {host : Identifier}
    {address : SocketAddrV6} {message : Option Frame}
    (he : s.enabled pack (.daemon (.choose n k host address message))) :
    (s.next pack (.daemon (.choose n k host address message))).Flows ↔
      s.KeepsFlow (.daemon (.choose n k host address message)) := by
  constructor
  · intro hflows y hn tuple htuple hne hserves
    obtain rfl : host = y := by
      have hfor := (h.current n y hn).2.2
      rwa [he.1.1.1] at hfor
    have hawaits : (s.next pack (.daemon (.choose n k host address message))).Awaits host := by
      refine ⟨n, k, (s.daemon.table k).io.nextQueue, message, hn, ?_⟩
      simp [UnixToNetwork.next, Daemon.next, Daemon.effect, Daemon.setPhase, Daemon.setTask]
    exact hflows host hawaits tuple htuple hne
      ((Daemon.serves_choose h.daemon he.1).mpr hserves)
  · intro hkeeps y hy tuple htuple hne hserves
    have hold := (Daemon.serves_choose h.daemon he.1).mp hserves
    rcases h.awaits_of_next he hy with hawaits | ⟨n', k', address', message', hn, heq⟩
    · exact hs y hawaits tuple htuple hne hold
    · obtain ⟨rfl, _, rfl, _⟩ := DaemonEvent.choose.inj heq
      exact hkeeps host hn tuple htuple hne hold

theorem Sound.flows_next (h : s.Sound) (hs : s.Flows) (he : s.enabled pack e) :
    (s.next pack e).Flows ↔ s.KeepsFlow e := by
  cases e with
  | enqueue tuple =>
    have hitems : (s.next pack (.enqueue tuple)).unixSource.items =
        s.unixSource.items ++ [tuple] := BoundedQueue.push_items he tuple
    constructor
    · intro hflows y hy hne
      exact hflows y hy tuple (by simp [hitems]) hne
    · intro hkeeps y hy behind hbehind hne
      rw [hitems] at hbehind
      rcases List.mem_append.mp hbehind with hold | hnew
      · exact hs y hy behind hold hne
      · obtain rfl := List.mem_singleton.mp hnew
        exact hkeeps y hy hne
  | forward tuple =>
    refine iff_of_true ?_ trivial
    rintro y ⟨n, k, q, message, hn, hphase⟩
    obtain ⟨rfl, _⟩ := Prod.mk.inj (Option.some.inj hn)
    have htask : (s.next pack (.forward tuple)).daemon.tasks s.daemon.nextTask =
        ⟨.once, .lookup tuple.hostId (some (.data tuple.srcPort tuple.dstPort tuple.data))⟩ :=
      Function.update_self ..
    rw [htask] at hphase
    cases hphase
  | daemon de =>
    cases de with
    | choose n k host address message => exact h.flows_choose hs he
    | socket k se =>
      refine ⟨fun hflows y hy tuple htuple hne hrestores => ?_,
        fun hkeeps => h.flows_daemon hs he (by simp) hkeeps⟩
      exact hflows y hy tuple htuple hne (Daemon.Serves.of_restores he.1 hrestores)
    | _ =>
      refine iff_of_true (h.flows_daemon hs he (by simp) ?_) ?_ <;>
        exact fun _ _ _ _ _ hrestores => hrestores

end UnixToNetwork

/-- No frame for a host with a live connection waits behind a handshake with another host exactly
where every step keeps the flow. -/
theorem handshake_flows_iff (r : Run (unixToNetworkMachine tls pack)) :
    (∀ x ∈ r.transitions, x.target.Flows) ↔ ∀ x ∈ r.transitions, x.source.KeepsFlow x.label := by
  apply Run.guarded_iff (I := UnixToNetwork.Sound) (P := UnixToNetwork.Flows)
  · rintro s ⟨network, rfl⟩
    exact ⟨.new network, fun y ⟨_, _, _, _, hn, _⟩ => by cases hn⟩
  · exact fun _ _ h he => h.next he
  · exact fun _ _ h hs he => h.flows_next hs he

section SilentHost

def acceptingEvents : List (DaemonEvent keyTls) :=
  [.openSocket localAddr] ++ forwarded 0 floodAddr [22] 0 true ++
  [.socket 0 (.reader (.offer 0)), .socket 0 (.accept (.take 0)), .socket 0 (.accept (.await 0)),
    .socket 0 (.accept (.read 0 ⟨0, floodAddr, [22]⟩)), .socket 0 (.accepted 0 (keySession [2])),
    .socket 0 (.register 0)]

/-- A frame for the first host is forwarded, which never answers, and a frame for the second is
queued. -/
def silentEvents : List (UnixToNetworkEvent keyTls) :=
  acceptingEvents.map .daemon ++
  [.enqueue ⟨digestOne, 5, 6, []⟩, .forward ⟨digestOne, 5, 6, []⟩,
    .daemon (.missing 2 digestOne (some (.data 5 6 []))),
    .daemon (.choose 2 0 digestOne hostAddr (some (.data 5 6 []))),
    .enqueue ⟨digestTwo, 5, 6, []⟩]

theorem held_up_by_handshake : ∃ s : UnixToNetwork keyTls,
    Reachable (unixToNetworkMachine keyTls (.ofTable [])) s ∧ s.Awaits digestOne ∧
    ⟨digestTwo, 5, 6, []⟩ ∈ s.unixSource.items ∧ s.daemon.Serves digestTwo ∧ ¬ s.Flows := by
  obtain ⟨s, hs, hp⟩ := exec_reachable (M := unixToNetworkMachine keyTls (.ofTable []))
    ⟨waitingNetwork, rfl⟩ silentEvents
    (p := fun s => decide (s.current = some (2, digestOne) ∧
      s.daemon.tasks 2 = ⟨.once, .handshake 0 1 (some (.data 5 6 []))⟩ ∧
      ⟨digestTwo, 5, 6, []⟩ ∈ s.unixSource.items ∧ 0 ∈ s.daemon.openSockets ∧
      (s.daemon.table 0).getConnection digestTwo = some 0 ∧
      ((s.daemon.table 0).endpoints 0).satisfies (fun c => (c.readTask ≠ .ended ∧
        c.writeTask ≠ .ended) ∧ c.accepts))) (by decide +kernel)
  obtain ⟨hcurrent, htask, hqueued, hopen, hconn, hlive⟩ := of_decide_eq_true hp
  have hawaits : s.Awaits digestOne := ⟨2, 0, 1, _, hcurrent, by rw [htask]⟩
  have hserves : s.daemon.Serves digestTwo := ⟨0, hopen, 0, hconn, hlive⟩
  exact ⟨s, hs, hawaits, hqueued, hserves,
    fun hflows => hflows digestOne hawaits _ hqueued (by decide) hserves⟩

end SilentHost

end Uip
