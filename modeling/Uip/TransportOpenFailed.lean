import Uip.TransportAuthenticity
import Uip.IoSocketReturn

/-!
# Calls of `open_connection` that fail

A call fails before it calls `connect`, or after that, when the connection it got is dropped; until
then all other tasks go on. `lastInserted` is the last entry that the read task wrote for an
address, unless a call of `connect` wrote one later.
-/
namespace Uip.Io

/-- Where the next datagram of an address goes. -/
inductive Route
  | connection (q : ℕ)
  | newConnection
  | discarded
  deriving DecidableEq

def Socket.route (s : Socket) (addr : SocketAddr) : Route :=
  match s.connections.lookup addr with
  | some q => if (s.queues q).receiver = true then .connection q else .discarded
  | none => .newConnection

theorem Socket.route_eq_connection {s : Socket} {addr : SocketAddr} {q : ℕ} :
    s.route addr = .connection q ↔
      s.connections.lookup addr = some q ∧ (s.queues q).receiver = true := by
  unfold route
  cases s.connections.lookup addr with
  | none => simp
  | some p => grind

theorem Socket.route_eq_newConnection {s : Socket} {addr : SocketAddr} :
    s.route addr = .newConnection ↔ s.connections.lookup addr = none := by
  unfold route
  cases s.connections.lookup addr with
  | none => simp
  | some p => grind

theorem Socket.route_lookup (s : Socket) (bytes : Bytes) (addr : SocketAddr) :
    match s.route addr with
    | .connection q => (s.queues q).receiver = true ∧
        (s.lookup bytes addr).readTask = .sending ⟨s.received.length, addr, bytes⟩ q false
    | .newConnection =>
        (s.lookup bytes addr).readTask = .sending ⟨s.received.length, addr, bytes⟩ s.nextQueue true
    | .discarded => ∃ q, (s.queues q).receiver = false ∧
        (s.lookup bytes addr).readTask = .sending ⟨s.received.length, addr, bytes⟩ q false := by
  cases hl : s.connections.lookup addr with
  | none => simp [route, lookup, hl]
  | some q => cases hr : (s.queues q).receiver <;> simp [route, lookup, hl, hr]

end Uip.Io

namespace Uip.Transport
open TransitionSystem

variable {tls : Tls}

/-- The last entry of the map that the read task wrote, after one more event. -/
def SocketEvent.reinserts (addr : SocketAddr) (last : Option ℕ) : SocketEvent tls → Option ℕ
  | .reader (.insert remote q _) => if addr = remote then some q else last
  | .openConnection _ address => if addr = .v6 address then none else last
  | _ => last

def lastInserted (addr : SocketAddr) (trace : List (Transition (Socket tls) (SocketEvent tls))) :
    Option ℕ :=
  (trace.map Transition.label).foldl (SocketEvent.reinserts addr) none

/-- A call of `open_connection` that returns an error leads from `s` to the state. It makes no step
where the connector cannot be configured, and else `trace` is what other tasks and the handshake do
between the call of `connect` and the return. -/
inductive FailedOpen (s : Socket tls) (identifier : Identifier) (address : SocketAddrV6) :
    Option (List (Transition (Socket tls) (SocketEvent tls))) → Socket tls → Prop
  | configuration : FailedOpen s identifier address none s
  | connected {trace : List (Transition (Socket tls) (SocketEvent tls))} {u : Socket tls}
      (path : Path (socketMachine tls) (s.next (.openConnection identifier address)) trace u)
      (failed : u.enabled (.openFailed s.io.nextQueue)) :
      FailedOpen s identifier address (some trace) (u.next (.openFailed s.io.nextQueue))

/-- The datagrams of the address go where they went before: to the connection that got them, and
to a new one if there was none. -/
structure KeepsRoute (s t : Socket tls) (addr : SocketAddr) : Prop where
  connection : ∀ q, s.io.route addr = .connection q → t.io.connections.lookup addr = some q
  unknown : s.io.Unconnected addr → s.io.route addr = .newConnection →
    t.io.route addr = .newConnection

/-- The call did not get to `connect`; or the address was known, and the read task re-inserted the
connection that got its datagrams, if any, after the last call of `connect`. -/
def Reinserted (s : Socket tls) (addr : SocketAddr) :
    Option (List (Transition (Socket tls) (SocketEvent tls))) → Prop
  | none => True
  | some trace => (∀ q, s.io.route addr = .connection q → lastInserted addr trace = some q) ∧
      ¬ (s.io.Unconnected addr ∧ s.io.route addr = .newConnection)

namespace Socket

variable {s : Socket tls} {e : SocketEvent tls}

theorem connect_of_onIo (he : s.enabled e) {addr : SocketAddr}
    (hi : e.onAcceptor.bind AcceptEvent.onIo = some (.connect addr)) :
    ∃ id address, e = .openConnection id address ∧ addr = .v6 address := by
  cases onIo_of_enabled he hi with
  | reader hr => cases hr
  | connect id address => exact ⟨id, address, rfl, rfl⟩

/-- An entry of the map is written by an insertion of the read task or by `open_connection`. -/
theorem lookup_next (he : s.enabled e) (addr : SocketAddr) :
    ((s.next e).io.connections.lookup addr = s.io.connections.lookup addr ∧
      ∀ last, e.reinserts addr last = last) ∨
    (∃ q, (s.next e).io.connections.lookup addr = some q ∧
      ∀ last, e.reinserts addr last = some q) ∨
    ((s.next e).io.connections.lookup addr = some s.io.nextQueue ∧
      ∀ last, e.reinserts addr last = none) := by
  rw [next_io]
  cases hi : e.onAcceptor.bind AcceptEvent.onIo with
  | none =>
    refine .inl ⟨rfl, fun last => ?_⟩
    cases e with
    | reader | openConnection => cases hi
    | _ => rfl
  | some i =>
    rw [Option.elim_some, Io.Socket.next_lookup]
    cases i with
    | insert remote q b =>
      obtain rfl := reader_of_onIo he hi rfl
      by_cases ha : addr = remote
      · exact .inr (.inl ⟨q, if_pos ha, fun _ => if_pos ha⟩)
      · exact .inl ⟨if_neg ha, fun _ => if_neg ha⟩
    | connect remote =>
      obtain ⟨id, address, rfl, rfl⟩ := connect_of_onIo he hi
      by_cases ha : addr = .v6 address
      · exact .inr (.inr ⟨if_pos ha, fun _ => if_pos ha⟩)
      · exact .inl ⟨if_neg ha, fun _ => if_neg ha⟩
    | _ =>
      refine .inl ⟨rfl, fun last => ?_⟩
      cases e with
      | reader j =>
        obtain rfl := Option.some.inj hi
        rfl
      | openConnection id address => cases Option.some.inj hi
      | _ => rfl

/-- From the call of `connect` on, the entry of the address is what the read task wrote last, or
what a call of `connect` wrote. -/
theorem entry_of_path {identifier : Identifier} {address : SocketAddrV6}
    {trace : List (Transition (Socket tls) (SocketEvent tls))} {u : Socket tls}
    (path : Path (socketMachine tls) (s.next (.openConnection identifier address)) trace u) :
    s.io.nextQueue ≤ u.io.nextQueue ∧ ∃ c, u.io.connections.lookup (.v6 address) = some c ∧
      (lastInserted (.v6 address) trace = some c ∨
        lastInserted (.v6 address) trace = none ∧ s.io.nextQueue ≤ c) := by
  generalize hstart : s.next (.openConnection identifier address) = start at path
  induction path with
  | nil =>
    subst hstart
    refine ⟨s.nextQueue_le _, s.io.nextQueue, ?_, .inr ⟨rfl, Nat.le_refl _⟩⟩
    rw [openConnection_io, Io.Socket.next_lookup]
    exact if_pos rfl
  | @snoc t u trace e prior next ih =>
    obtain ⟨hle, c, hc, hlast⟩ := ih
    obtain ⟨he, rfl⟩ := guarded_step.mp next
    refine ⟨Nat.le_trans hle (t.nextQueue_le e), ?_⟩
    have hsnoc : lastInserted (.v6 address) (trace ++ [⟨t, e, t.next e⟩]) =
        e.reinserts (.v6 address) (lastInserted (.v6 address) trace) := by
      simp [lastInserted]
    rw [hsnoc]
    rcases lookup_next he (.v6 address) with ⟨hl, hr⟩ | ⟨q, hl, hr⟩ | ⟨hl, hr⟩
    · exact ⟨c, hl.trans hc, by rw [hr]; exact hlast⟩
    · exact ⟨q, hl, .inl (hr _)⟩
    · exact ⟨t.io.nextQueue, hl, .inr ⟨hr _, hle⟩⟩

end Socket

/-- After a failed call the datagrams of the address go where they went before exactly where the
call did not get to `connect`, or the read task re-inserted the connection that got them. -/
theorem failed_open_keeps_iff {s t : Socket tls} (hs : Reachable (socketMachine tls) s)
    {identifier : Identifier} {address : SocketAddrV6}
    {trace : Option (List (Transition (Socket tls) (SocketEvent tls)))}
    (h : FailedOpen s identifier address trace t) :
    KeepsRoute s t (.v6 address) ↔ Reinserted s (.v6 address) trace := by
  have hw := (Socket.Owners.of_reachable hs).acceptor.wellFormed
  cases h with
  | configuration => exact iff_of_true ⟨fun q hq => (Io.Socket.route_eq_connection.mp hq).1,
      fun _ hn => hn⟩ trivial
  | @connected trace u path failed =>
    obtain ⟨-, c, hc, hlast⟩ := Socket.entry_of_path path
    have hentry : (u.next (.openFailed s.io.nextQueue)).io.connections.lookup (.v6 address) =
        some c := by
      rw [Socket.next_io]
      exact hc
    -- An entry that a call of `connect` wrote is newer than what the address had before.
    have hold : ∀ q, s.io.route (.v6 address) = .connection q →
        (c = q ↔ lastInserted (.v6 address) trace = some q) := by
      intro q hq
      have hlt := (hw.entry _ q (Io.Socket.route_eq_connection.mp hq).1).1
      rcases hlast with hl | ⟨hl, hge⟩
      · rw [hl, Option.some.injEq]
      · refine iff_of_false ?_ (by simp [hl])
        rintro rfl
        exact Nat.lt_irrefl _ (Nat.lt_of_lt_of_le hlt hge)
    constructor
    · rintro ⟨hconnection, hunknown⟩
      refine ⟨fun q hq => (hold q hq).mp ?_, fun ⟨hun, hnew⟩ => ?_⟩
      · exact Option.some.inj (hentry.symm.trans (hconnection q hq))
      · have hnone := Io.Socket.route_eq_newConnection.mp (hunknown hun hnew)
        cases hentry.symm.trans hnone
    · rintro ⟨hreinserted, hknown⟩
      refine ⟨fun q hq => ?_, fun hun hnew => absurd ⟨hun, hnew⟩ hknown⟩
      rw [hentry, (hold q hq).mpr (hreinserted q hq)]

section Deafened

def servedEvents : List (SocketEvent keyTls) :=
  [.reader (.datagram [22] (.v6 openedAddr)), .reader (.send ⟨0, .v6 openedAddr, [22]⟩ 0 true),
    .reader (.insert (.v6 openedAddr) 0 true), .reader (.offer 0), .accept (.take 0),
    .accepted 0 (keySession [1]), .register 0]

/-- The read task forwards to the accepted connection while the call goes on. -/
theorem failed_open_keeps_forwarding : ∃ (s t : Socket keyTls)
    (trace : List (Transition (Socket keyTls) (SocketEvent keyTls))),
    FailedOpen s digestOne openedAddr (some trace) t ∧
    s.io.route (.v6 openedAddr) = .connection 0 ∧ lastInserted (.v6 openedAddr) trace = some 0 ∧
    (KeepsRoute s t (.v6 openedAddr) ↔ Reinserted s (.v6 openedAddr) (some trace)) := by
  obtain ⟨s, hs, hp⟩ := exec_reachable (M := socketMachine keyTls) rfl
    (servedEvents ++ [.reader (.datagram [23] (.v6 openedAddr))])
    (p := fun s => decide (s.io.route (.v6 openedAddr) = .connection 0 ∧ s.io.nextQueue = 1) &&
      (exec (socketMachine keyTls) (s.next (.openConnection digestOne openedAddr))
        [.reader (.send ⟨1, .v6 openedAddr, [23]⟩ 0 false),
          .reader (.insert (.v6 openedAddr) 0 false)]).any
        fun u : Socket keyTls => decide (u.enabled (.openFailed 1))) (by decide +kernel)
  obtain ⟨hknown, hexec⟩ := (Bool.and_eq_true ..).mp hp
  obtain ⟨hroute, hnext⟩ := of_decide_eq_true hknown
  obtain ⟨u, hu, hfailed⟩ := (Option.any_eq_true ..).mp hexec
  obtain ⟨trace, path, hlabels⟩ := exec_path hu
  have hcall : FailedOpen s digestOne openedAddr (some trace) _ :=
    .connected path (hnext ▸ of_decide_eq_true hfailed)
  refine ⟨s, _, trace, hcall, hroute, ?_, failed_open_keeps_iff hs hcall⟩
  rw [lastInserted, hlabels]
  rfl

/-- A call of `open_connection` for the address of an accepted connection, and one for an unknown
address, after which the datagrams of the address are discarded. -/
theorem failed_open_discards :
    (∃ s t, Reachable (socketMachine keyTls) s ∧
      FailedOpen s digestOne openedAddr (some []) t ∧ s.io.route (.v6 openedAddr) = .connection 0 ∧
      (t.io.queues 0).receiver = true ∧ t.io.route (.v6 openedAddr) = .discarded ∧
      ¬ KeepsRoute s t (.v6 openedAddr)) ∧
    ∃ t, FailedOpen (Socket.new keyTls) digestOne openedAddr (some []) t ∧
      t.io.route (.v6 openedAddr) = .discarded ∧
      ¬ KeepsRoute (Socket.new keyTls) t (.v6 openedAddr) := by
  constructor
  · obtain ⟨s, hs, hp⟩ := exec_reachable (M := socketMachine keyTls) rfl servedEvents
      (p := fun s => decide (s.io.route (.v6 openedAddr) = .connection 0 ∧
        (s.next (.openConnection digestOne openedAddr)).enabled (.openFailed s.io.nextQueue) ∧
        let t := (s.next (.openConnection digestOne openedAddr)).next (.openFailed s.io.nextQueue)
        (t.io.queues 0).receiver = true ∧ t.io.route (.v6 openedAddr) = .discarded ∧
        t.io.connections.lookup (.v6 openedAddr) = some 1)) (by decide +kernel)
    obtain ⟨hroute, hfailed, hrec, hdiscards, hentry⟩ := of_decide_eq_true hp
    refine ⟨s, _, hs, .connected (.nil _) hfailed, hroute, hrec, hdiscards, fun h => ?_⟩
    have hkept := h.connection 0 hroute
    rw [hentry] at hkept
    cases hkept
  · have hdiscards : (((Socket.new keyTls).next (.openConnection digestOne openedAddr)).next
        (.openFailed 0)).io.route (.v6 openedAddr) = .discarded := by decide +kernel
    refine ⟨_, .connected (.nil _) (by decide +kernel), hdiscards, fun h => ?_⟩
    have hnew := h.unknown (fun q hq => absurd hq (Nat.not_lt_zero q)) rfl
    cases hdiscards.symm.trans hnew

end Deafened

end Uip.Transport
