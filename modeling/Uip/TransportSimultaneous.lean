import Uip.IoSocketRoles
import Uip.TransportSocketInvariant

/-!
# Two hosts that open connections to each other

Each host has one transport socket and knows the address of the other. What one sends arrives in
any order, any number of times or never, and nobody else sends in its name. `hello` records which
datagram is the first of a handshake that a host has begun, and `marks` each lookup of it.
-/
namespace Uip.Transport
open TransitionSystem

variable {tls : Tls}

inductive Host
  | a
  | b
  deriving DecidableEq

def Host.other : Host → Host
  | a => b
  | b => a

structure Pair (tls : Tls) where
  socket : Host → Socket tls
  sent : Host → List Bytes
  hello : Host → Option ℕ
  marks : Host → List Io.Mark

inductive PairEvent (tls : Tls)
  | socket (x : Host) (e : SocketEvent tls)
  | transmit (x : Host) (q : ℕ) (bytes : Bytes)
  | arrive (x : Host) (i : ℕ) (bytes : Bytes)

variable (address : Host → SocketAddrV6)

namespace Pair

def new (tls : Tls) : Pair tls := ⟨fun _ => .new tls, fun _ => [], fun _ => none, fun _ => []⟩

def io (s : Pair tls) (x : Host) : Io.Socket := (s.socket x).io

def remote (x : Host) : SocketAddr := .v6 (address x.other)

/-- Only `arrive` brings what comes from the other host. -/
def foreign (x : Host) : SocketEvent tls → Prop
  | .reader (.datagram _ addr) => addr ≠ remote address x
  | _ => True

instance (x : Host) : (e : SocketEvent tls) → Decidable (foreign address x e)
  | .reader (.datagram _ addr) => inferInstanceAs (Decidable (¬ addr = remote address x))
  | .reader (.send ..) | .reader (.sendClosed ..) | .reader (.insert ..) | .reader (.offer _)
  | .reader (.offerClosed _) | .reader .recvError | .reader .closed | .reader .close
  | .reader (.connect _) | .reader (.take _) | .reader (.read ..) | .reader (.drop _)
  | .reader .dropAcceptor | .accept _ | .accepted .. | .register _ | .openConnection ..
  | .openRead .. | .openFailed _ | .opened .. | .receive .. | .connection .. | .deliver _
  | .deliverClosed _ | .release _ | .take _ | .dropReceiver | .close =>
    inferInstanceAs (Decidable True)

def arrival (x : Host) (bytes : Bytes) : SocketEvent tls :=
  .reader (.datagram bytes (remote address x))

/-- A connection that some task has sends to the other host. -/
def sends (s : Pair tls) (x : Host) (q : ℕ) : Prop :=
  q < (s.io x).nextQueue ∧ ((s.io x).queues q).receiver = true ∧ ¬ (s.io x).held q ∧
    ((s.io x).queues q).remote = remote address x

instance (s : Pair tls) (x : Host) (q : ℕ) : Decidable (s.sends address x q) :=
  inferInstanceAs (Decidable (_ ∧ _ ∧ _ ∧ _))

def enabled (s : Pair tls) : PairEvent tls → Prop
  | .socket x e => foreign address x e ∧ (s.socket x).enabled e
  | .transmit x q _ => s.sends address x q
  | .arrive x i bytes => (s.sent x.other)[i]? = some bytes ∧
      (s.socket x).enabled (arrival address x bytes)

instance (s : Pair tls) : (e : PairEvent tls) → Decidable (s.enabled address e)
  | .socket _ _ => inferInstanceAs (Decidable (_ ∧ _))
  | .transmit x q _ => inferInstanceAs (Decidable (s.sends address x q))
  | .arrive _ _ _ => inferInstanceAs (Decidable (_ ∧ _))

def step (s : Pair tls) (x : Host) (e : SocketEvent tls) : Pair tls :=
  { s with socket := Function.update s.socket x ((s.socket x).next e) }

/-- The first datagram that a connection of `connect` sends is the first of a handshake. -/
def transmit (s : Pair tls) (x : Host) (q : ℕ) (bytes : Bytes) : Pair tls :=
  { s with
    sent := Function.update s.sent x (s.sent x ++ [bytes])
    hello :=
      if ((s.io x).queues q).origin = .connect ∧ s.hello x = none then
        Function.update s.hello x (some (s.sent x).length)
      else s.hello }

def arrive (s : Pair tls) (x : Host) (i : ℕ) (bytes : Bytes) : Pair tls :=
  { s.step x (arrival address x bytes) with
    marks :=
      if s.hello x.other = some i then
        Function.update s.marks x (s.marks x ++ [(s.io x).mark (remote address x)])
      else s.marks }

def next (s : Pair tls) : PairEvent tls → Pair tls
  | .socket x e => s.step x e
  | .transmit x q bytes => s.transmit x q bytes
  | .arrive x i bytes => s.arrive address x i bytes

def onSocket (x : Host) : PairEvent tls → Option (SocketEvent tls)
  | .socket y e => if x = y then some e else none
  | .transmit .. => none
  | .arrive y _ bytes => if x = y then some (arrival address y bytes) else none

end Pair

def pairMachine (tls : Tls) : Machine (Pair tls) (PairEvent tls) :=
  guarded (· = Pair.new tls) (Pair.enabled address) (Pair.next address)

namespace Pair

variable {s : Pair tls} {address}

theorem socket_step (s : Pair tls) (x y : Host) (e : SocketEvent tls) :
    (s.step y e).socket x = if x = y then (s.socket x).next e else s.socket x := by
  split_ifs with hx
  · subst hx
    simp [step]
  · simp [step, hx]

theorem next_socket (s : Pair tls) (x : Host) (e : PairEvent tls) :
    (s.next address e).socket x =
      (onSocket address x e).elim (s.socket x) (s.socket x).next := by
  cases e with
  | socket y e =>
    change (s.step y e).socket x = _
    rw [socket_step, onSocket]
    split_ifs <;> rfl
  | transmit y q bytes => rfl
  | arrive y i bytes =>
    change (s.step y (arrival address y bytes)).socket x = _
    rw [socket_step, onSocket]
    split_ifs <;> rfl

theorem enabled_socket {x : Host} {e : PairEvent tls} (he : s.enabled address e)
    {d : SocketEvent tls} (hd : onSocket address x e = some d) :
    (s.socket x).enabled d := by
  cases e with
  | socket y e =>
    rw [onSocket] at hd
    split_ifs at hd with hx
    obtain rfl := Option.some.inj hd
    exact hx ▸ he.2
  | transmit y q bytes => cases hd
  | arrive y i bytes =>
    rw [onSocket] at hd
    split_ifs at hd with hx
    obtain rfl := Option.some.inj hd
    exact hx ▸ he.2

/-- Both hosts have registered client-role connections for each other, which have been handed the
first datagram of the other's handshake, and no accept-role connection has been. -/
structure Simultaneous (address : Host → SocketAddrV6) (s : Pair tls) : Prop where
  entry : ∀ x, ∃ q, (s.io x).connections.lookup (remote address x) = some q ∧
    ((s.io x).queues q).origin = .connect
  client : ∀ x, ∃ m ∈ s.marks x, (s.io x).Handed m.number .connect
  accept : ∀ x, ∀ m ∈ s.marks x, ¬ (s.io x).Handed m.number .datagram

/-- The invariant of both demultiplexers. -/
def Followed (address : Host → SocketAddrV6) (s : Pair tls) : Prop :=
  ∀ x, (s.io x).Followed (remote address x) (s.marks x)

theorem Followed.next (h : s.Followed address) {e : PairEvent tls} (he : s.enabled address e) :
    (s.next address e).Followed address := by
  intro y
  cases e with
  | socket x e =>
    change ((s.step x e).io y).Followed _ (s.marks y)
    rw [io, socket_step]
    split_ifs with hy
    · subst hy
      exact Socket.io_next (P := fun io => io.Followed (remote address y) (s.marks y)) (h y)
        fun i hi => (h y).next (Socket.enabled_io he.2 hi)
    · exact h y
  | transmit x q bytes => exact h y
  | arrive x i bytes =>
    have hio : (s.io x).enabled (.datagram bytes (remote address x)) :=
      Socket.enabled_io he.2 rfl
    change ((s.step x (arrival address x bytes)).io y).Followed _
      ((s.arrive address x i bytes).marks y)
    rw [io, socket_step]
    split_ifs with hy
    · subst hy
      change ((s.io y).next (.datagram bytes (remote address y))).Followed _ _
      simp only [arrive]
      split_ifs
      · rw [Function.update_self]
        exact (h y).mark hio
      · exact (h y).next hio
    · have hmarks : (s.arrive address x i bytes).marks y = s.marks y := by
        simp only [arrive]
        split_ifs
        · exact Function.update_of_ne hy _ _
        · rfl
      rw [hmarks]
      exact h y

theorem Followed.of_reachable (h : Reachable (pairMachine address tls) s) :
    s.Followed address := by
  apply h.guarded_induct (P := Followed address)
  · rintro s rfl x
    exact .bind _
  · exact fun s e hs he => hs.next he

end Pair

/-- Each host of a pair is a transport socket of its own model. -/
theorem pairMachine_refines {address : Host → SocketAddrV6} (x : Host) :
    Refines (pairMachine address tls) (socketMachine tls) fun s => s.socket x := by
  apply Refines.guarded_part (Pair.onSocket address x)
  · rintro s rfl
    rfl
  · exact fun s e => s.next_socket x e
  · exact fun s e he d hd => Pair.enabled_socket he hd

/-- In a simultaneous opening without a server side, each host had registered its own connection
when it looked up the first datagram of the other's handshake, and it never looked that up while
the address was unknown. -/
theorem simultaneous_needs_both {address : Host → SocketAddrV6} {s : Pair tls}
    (h : Reachable (pairMachine address tls) s) (hs : s.Simultaneous address) (x : Host) :
    (∃ m ∈ s.marks x, m.found = some .connect) ∧ ∀ m ∈ s.marks x, m.found ≠ none :=
  (Pair.Followed.of_reachable h x).registered (hs.client x) (hs.accept x)

section Crossing

def hostAddress : Host → SocketAddrV6
  | .a => ⟨8, 65041, 0, 0⟩
  | .b => ⟨9, 65041, 0, 0⟩

/-- Both hosts call `open_connection` before the datagrams of the other arrive. -/
def crossingEvents : List (PairEvent keyTls) :=
  [.socket .a (.openConnection digestTwo (hostAddress .b)),
    .socket .b (.openConnection digestOne (hostAddress .a)),
    .transmit .a 0 [22], .transmit .b 0 [23],
    .arrive .b 0 [22], .arrive .a 0 [23],
    .socket .b (.reader (.send ⟨0, .v6 (hostAddress .a), [22]⟩ 0 false)),
    .socket .a (.reader (.send ⟨0, .v6 (hostAddress .b), [23]⟩ 0 false))]

def crossingDatagram : Host → Io.Datagram
  | .a => ⟨0, .v6 (hostAddress .b), [23]⟩
  | .b => ⟨0, .v6 (hostAddress .a), [22]⟩

def Crossed (s : Pair keyTls) (x : Host) : Prop :=
  (s.io x).connections.lookup (Pair.remote hostAddress x) = some 0 ∧
    ((s.io x).queues 0).origin = .connect ∧
    ((s.io x).queues 0).history = [crossingDatagram x] ∧
    s.marks x = [⟨0, some .connect⟩]

instance (s : Pair keyTls) (x : Host) : Decidable (Crossed s x) :=
  inferInstanceAs (Decidable (_ ∧ _ ∧ _ ∧ _))

theorem exists_crossed :
    ∃ s, Reachable (pairMachine hostAddress keyTls) s ∧ ∀ x, Crossed s x := by
  obtain ⟨s, hs, hp⟩ := exec_reachable (M := pairMachine hostAddress keyTls) rfl crossingEvents
    (p := fun s => decide (Crossed s .a ∧ Crossed s .b)) (by decide +kernel)
  obtain ⟨ha, hb⟩ := of_decide_eq_true hp
  refine ⟨s, hs, fun x => ?_⟩
  cases x with
  | a => exact ha
  | b => exact hb

theorem simultaneous_of_crossed {s : Pair keyTls}
    (h : Reachable (pairMachine hostAddress keyTls) s) (crossed : ∀ x, Crossed s x) :
    s.Simultaneous hostAddress := by
  refine ⟨fun x => ?_, fun x => ?_, fun x m hm handed => ?_⟩
  · obtain ⟨hl, ho, -⟩ := crossed x
    exact ⟨0, hl, ho⟩
  · obtain ⟨-, ho, hh, hm⟩ := crossed x
    refine ⟨⟨0, some .connect⟩, by simp [hm], 0, crossingDatagram x, by simp [hh], ?_, ho⟩
    cases x <;> rfl
  · have htaker := (Pair.Followed.of_reachable h x).taker hm handed
    obtain ⟨-, -, -, hmarks⟩ := crossed x
    rw [hmarks] at hm
    rw [List.mem_singleton.mp hm] at htaker
    cases htaker

theorem simultaneous_without_server :
    ∃ s, Reachable (pairMachine hostAddress keyTls) s ∧ s.Simultaneous hostAddress := by
  obtain ⟨s, hs, crossed⟩ := exists_crossed
  exact ⟨s, hs, simultaneous_of_crossed hs crossed⟩

theorem simultaneous_needs_both_crossed :
    ∃ s, Reachable (pairMachine hostAddress keyTls) s ∧ s.Simultaneous hostAddress ∧
      ∀ x, (∃ m ∈ s.marks x, m.found = some .connect) ∧ ∀ m ∈ s.marks x, m.found ≠ none := by
  obtain ⟨s, hs, crossed⟩ := exists_crossed
  have hsim := simultaneous_of_crossed hs crossed
  exact ⟨s, hs, hsim, fun x => simultaneous_needs_both hs hsim x⟩

end Crossing

end Uip.Transport
