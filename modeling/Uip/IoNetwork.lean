import Uip.EventLogs
import Uip.IoSocketDemux

/-!
# Sockets on a network

Every address has a socket. Its connections write datagrams for their remotes; the network may
lose, repeat and reorder them, but makes up none and does not change any.
-/
namespace Uip.Io
open TransitionSystem

structure Packet where
  sender : SocketAddr
  target : SocketAddr
  bytes : Bytes
  deriving DecidableEq

inductive ConnError
  | cantAssignRequestedAddr
  deriving DecidableEq

section Writes
variable (localAddr remoteAddr : SocketAddr)

def pollWrite (buf : Bytes) : Packet := ⟨localAddr, remoteAddr, buf⟩

def send (buf : Bytes) : Packet := ⟨localAddr, remoteAddr, buf⟩

def sendTo (buf : Bytes) (target : SocketAddr) : Except ConnError Packet :=
  if target ≠ remoteAddr then .error .cantAssignRequestedAddr
  else .ok ⟨localAddr, remoteAddr, buf⟩

end Writes

/-- `sent` records every datagram that was written; a datagram arrives from there. -/
structure Network where
  sockets : SocketAddr → Socket
  sent : List Packet

inductive NetworkEvent
  | socket (addr : SocketAddr) (e : Event)
  | pollWrite (addr : SocketAddr) (connection : ℕ) (buf : Bytes)
  | send (addr : SocketAddr) (connection : ℕ) (buf : Bytes)
  | sendTo (addr : SocketAddr) (connection : ℕ) (buf : Bytes) (target : SocketAddr)
  | arrive (n : ℕ) (packet : Packet)
  deriving DecidableEq

def Event.isDatagram : Event → Bool
  | .datagram .. => true
  | _ => false

def Socket.owned (s : Socket) (q : ℕ) : Prop :=
  q < s.nextQueue ∧ (s.queues q).receiver = true ∧ ¬ s.held q

instance (s : Socket) (q : ℕ) : Decidable (s.owned q) := inferInstanceAs (Decidable (_ ∧ _))

namespace Network

def enabled (s : Network) : NetworkEvent → Prop
  | .socket addr e => e.isDatagram = false ∧ (s.sockets addr).enabled e
  | .pollWrite addr q _ | .send addr q _ | .sendTo addr q _ _ => (s.sockets addr).owned q
  | .arrive n packet => s.sent[n]? = some packet ∧
      (s.sockets packet.target).enabled (.datagram packet.bytes packet.sender)

instance (s : Network) (e : NetworkEvent) : Decidable (s.enabled e) := by
  cases e <;> dsimp only [enabled] <;> infer_instance

def writes (s : Network) : NetworkEvent → Option Packet
  | .pollWrite addr q buf => some (Io.pollWrite addr ((s.sockets addr).queues q).remote buf)
  | .send addr q buf => some (Io.send addr ((s.sockets addr).queues q).remote buf)
  | .sendTo addr q buf target =>
    (Io.sendTo addr ((s.sockets addr).queues q).remote buf target).toOption
  | _ => none

def onSocket (s : Network) (addr : SocketAddr) (e : Event) : Network :=
  { s with sockets := Function.update s.sockets addr ((s.sockets addr).next e) }

def next (s : Network) (e : NetworkEvent) : Network :=
  match e with
  | .socket addr e => s.onSocket addr e
  | .arrive _ packet => s.onSocket packet.target (.datagram packet.bytes packet.sender)
  | .pollWrite .. | .send .. | .sendTo .. => { s with sent := s.sent ++ (s.writes e).toList }

end Network

def networkMachine : Machine Network NetworkEvent :=
  guarded (· = ⟨fun _ => .bind, []⟩) Network.enabled Network.next

def NetworkEvent.at (b : SocketAddr) : NetworkEvent → Option Event
  | .socket addr e => if addr = b then some e else none
  | .arrive _ packet =>
    if packet.target = b then some (.datagram packet.bytes packet.sender) else none
  | _ => none

def NetworkEvent.arrives (a b : SocketAddr) : NetworkEvent → Option (ℕ × Bytes)
  | .arrive n packet =>
    if packet.sender = a ∧ packet.target = b then some (n, packet.bytes) else none
  | _ => none

def Event.reads (q : ℕ) : Event → Option Datagram
  | .read p d => if p = q then some d else none
  | _ => none

def Event.datagramFrom (a : SocketAddr) : Event → Option Bytes
  | .datagram bytes remote => if remote = a then some bytes else none
  | _ => none

/-- The datagram that is read of a connection at an address. -/
def NetworkEvent.readsAt (b : SocketAddr) (q : ℕ) (e : NetworkEvent) : Option Bytes :=
  (e.at b).bind fun e => (e.reads q).map Datagram.bytes

namespace Socket

variable {s : Socket} {e : Event} {trace : List (Transition Socket Event)}

/-- What was read of the connection `q` on the way. -/
def readBy (trace : List (Transition Socket Event)) (q : ℕ) : List Datagram :=
  trace.filterMap fun x => x.label.reads q

theorem readBy_snoc (trace : List (Transition Socket Event)) (s t : Socket) (e : Event) (q : ℕ) :
    readBy (trace ++ [⟨s, e, t⟩]) q = readBy trace q ++ (e.reads q).toList := by
  rw [readBy, List.filterMap_append]
  cases he : e.reads q <;> simp [readBy, he]

theorem reads_eq_some {q : ℕ} {d : Datagram} : e.reads q = some d ↔ e = .read q d := by
  cases e with
  | read p d' =>
    by_cases hp : p = q
    · simp [Event.reads, hp]
    · simp [Event.reads, hp]
  | _ => simp [Event.reads]

theorem reads_eq_none {q : ℕ} (h : ∀ d, e ≠ .read q d) : e.reads q = none :=
  Option.eq_none_iff_forall_ne_some.mpr fun d hd => h d (reads_eq_some.mp hd)

/-- What was read of a connection is the first part of what its queue has taken, and the rest is
still there while the connection exists. -/
structure ReadInOrder (s : Socket) (trace : List (Transition Socket Event)) (q : ℕ) : Prop where
  leads : readBy trace q <+: (s.queues q).history
  rest : q < s.nextQueue → (s.queues q).receiver = true →
    readBy trace q ++ (s.queues q).datagrams.items = (s.queues q).history

theorem ReadInOrder.untouched {q : ℕ} {t : Socket} (h : s.ReadInOrder trace q)
    (hq : q < s.nextQueue) (hqueue : t.queues q = s.queues q) (hne : ∀ d, e ≠ .read q d) :
    t.ReadInOrder (trace ++ [⟨s, e, t⟩]) q := by
  have hread : readBy (trace ++ [⟨s, e, t⟩]) q = readBy trace q := by
    rw [readBy_snoc, reads_eq_none hne, Option.toList_none, List.append_nil]
  refine ⟨?_, fun _ hopen => ?_⟩
  · rw [hread, hqueue]
    exact h.leads
  · rw [hqueue] at hopen
    rw [hread, hqueue]
    exact h.rest hq hopen

theorem ReadInOrder.next {q : ℕ} (h : s.ReadInOrder trace q) (ha : s.Apart) (he : s.enabled e) :
    (s.next e).ReadInOrder (trace ++ [⟨s, e, s.next e⟩]) q := by
  by_cases hq : q < s.nextQueue
  · by_cases hread : ∃ d, e = .read q d
    · obtain ⟨d, rfl⟩ := hread
      obtain ⟨others, hitems⟩ := List.head?_eq_some_iff.mp he.2.2.2
      have hall := h.rest hq he.2.1
      have hlog : readBy (trace ++ [⟨s, .read q d, s.next (.read q d)⟩]) q =
          readBy trace q ++ [d] := by
        rw [readBy_snoc, reads_eq_some.mpr rfl]
        rfl
      have hnow : readBy trace q ++ [d] ++ others = (s.queues q).history := by
        rw [← hall, hitems, List.append_assoc]
        rfl
      have hqueue : (s.next (.read q d)).queues q = (s.queues q).pop := by
        simp [Socket.next, updateQueue]
      refine ⟨?_, fun _ _ => ?_⟩
      · rw [hlog, hqueue, pop_history, ← hnow]
        exact List.prefix_append _ _
      · rw [hlog, hqueue, pop_history, pop_items, hitems]
        exact hnow
    · have hne : ∀ d, e ≠ .read q d := fun d hd => hread ⟨d, hd⟩
      have hlog : readBy (trace ++ [⟨s, e, s.next e⟩]) q = readBy trace q := by
        rw [readBy_snoc, reads_eq_none hne, Option.toList_none, List.append_nil]
      rcases s.next_queue e hq with hn | ⟨d, b, rfl, hn⟩ | ⟨d, rfl, -⟩ | ⟨-, hn⟩
      · exact h.untouched hq hn hne
      · refine ⟨?_, fun _ _ => ?_⟩
        · rw [hlog, hn, put_history]
          exact h.leads.trans (List.prefix_append _ _)
        · rw [hlog, hn, put_history, put_items _ _ he.2.2, ← h.rest hq he.2.1, List.append_assoc]
      · exact absurd rfl (hne d)
      · refine ⟨?_, fun _ hopen => ?_⟩
        · rw [hlog, hn, close_history]
          exact h.leads
        · rw [hn] at hopen
          cases hopen
  · -- nothing is read of a connection before it is made
    have hle := Nat.le_of_not_lt hq
    have hnil : readBy trace q = [] := List.prefix_nil.mp (ha.unused q hle ▸ h.leads)
    have hne : ∀ d, e ≠ .read q d := by
      rintro d rfl
      exact hq he.1
    have hlog : readBy (trace ++ [⟨s, e, s.next e⟩]) q = [] := by
      rw [readBy_snoc, reads_eq_none hne, hnil]
      rfl
    refine ⟨hlog ▸ List.nil_prefix, fun hlt _ => ?_⟩
    have hempty : ((s.next e).queues q).datagrams.items = [] ∧
        ((s.next e).queues q).history = [] := by
      rcases s.next_fresh e with ⟨hn, -⟩ | ⟨hn, ⟨_, _, _, -, hnew⟩ | ⟨_, _, hnew⟩⟩
      · omega
      · obtain rfl : q = s.nextQueue := by omega
        rw [hnew]
        exact ⟨rfl, rfl⟩
      · obtain rfl : q = s.nextQueue := by omega
        rw [hnew]
        exact ⟨rfl, rfl⟩
    rw [hlog, hempty.1, hempty.2]
    rfl

theorem ReadInOrder.of_path (path : Path machine Socket.bind trace s) (q : ℕ) :
    s.ReadInOrder trace q := by
  induction path with
  | nil => exact ⟨List.nil_prefix, fun hq => absurd hq (Nat.not_lt_zero q)⟩
  | snoc prior next ih =>
    obtain ⟨he, rfl⟩ := guarded_step.mp next
    exact ih.next (Demultiplexed.of_path prior).apart he

theorem received_of_path (path : Path machine Socket.bind trace s) (a : SocketAddr) :
    (receivedFrom s.received a).map Datagram.bytes =
      trace.filterMap fun x => x.label.datagramFrom a := by
  induction path with
  | nil => rfl
  | @snoc t u trace e prior next ih =>
    obtain ⟨-, rfl⟩ := guarded_step.mp next
    rw [List.filterMap_append, ← ih]
    have hreceived := next_received t e
    cases e with
    | datagram bytes remote =>
      have hlast : (t.next (.datagram bytes remote)).received =
          t.received ++ [⟨t.received.length, remote, bytes⟩] := hreceived
      rw [hlast, receivedFrom, List.filter_append, List.map_append]
      by_cases hr : remote = a <;> simp [receivedFrom, Event.datagramFrom, hr]
    | _ =>
      rw [hreceived]
      simp [Event.datagramFrom]

end Socket

namespace Network

variable {s : Network} {e : NetworkEvent} {b : SocketAddr}

theorem onSocket_self (s : Network) (b : SocketAddr) (e : Event) :
    (s.onSocket b e).sockets b = (s.sockets b).next e := by
  simp [onSocket]

theorem onSocket_of_ne (s : Network) {a b : SocketAddr} (h : a ≠ b) (e : Event) :
    (s.onSocket a e).sockets b = s.sockets b := by
  simp [onSocket, Ne.symm h]

theorem step_at {d : Event} (he : s.enabled e) (hat : e.at b = some d) :
    (s.sockets b).enabled d ∧ (s.sockets b).next d = (s.next e).sockets b := by
  cases e with
  | socket addr e =>
    obtain ⟨rfl, rfl⟩ := Option.ite_none_right_eq_some.mp hat |>.imp_right Option.some.inj
    exact ⟨he.2, (s.onSocket_self addr e).symm⟩
  | arrive n packet =>
    obtain ⟨rfl, rfl⟩ := Option.ite_none_right_eq_some.mp hat |>.imp_right Option.some.inj
    exact ⟨he.2, (s.onSocket_self packet.target _).symm⟩
  | pollWrite | send | sendTo => cases hat

theorem next_elsewhere (hat : e.at b = none) : (s.next e).sockets b = s.sockets b := by
  cases e with
  | socket addr e =>
    have hne : addr ≠ b := fun heq => by simp [NetworkEvent.at, heq] at hat
    exact s.onSocket_of_ne hne e
  | arrive n packet =>
    have hne : packet.target ≠ b := fun heq => by simp [NetworkEvent.at, heq] at hat
    exact s.onSocket_of_ne hne _
  | pollWrite | send | sendTo => rfl

theorem next_sent (s : Network) (e : NetworkEvent) :
    (s.next e).sent = s.sent ++ (s.writes e).toList := by
  cases e with
  | socket addr e => exact (List.append_nil _).symm
  | arrive n packet => exact (List.append_nil _).symm
  | pollWrite | send | sendTo => rfl

def socketSteps (r : Run networkMachine) (b : SocketAddr) : List (Transition Socket Event) :=
  r.transitions.filterMap (Transition.onPart (fun s => s.sockets b) (NetworkEvent.at b))

theorem filterMap_socketSteps {α : Type*} (r : Run networkMachine) (b : SocketAddr)
    (f : Event → Option α) : ((socketSteps r b).filterMap fun x => f x.label) =
      r.transitions.filterMap fun x => (x.label.at b).bind f := by
  simp only [socketSteps, List.filterMap_filterMap, Transition.onPart, Option.bind_map]
  rfl

theorem socketPath (r : Run networkMachine) (b : SocketAddr) :
    Path machine Socket.bind (socketSteps r b) (r.final.sockets b) := by
  have hstart : r.start.sockets b = Socket.bind := by rw [show r.start = _ from r.starts]
  rw [← hstart]
  refine r.path.onPart (fun s => s.sockets b) (NetworkEvent.at b) (fun x hx d hat => ?_)
    fun x hx hnone => ?_
  · obtain ⟨he, hnext⟩ := guarded_step.mp (r.path.step_of_mem hx)
    rw [← hnext]
    exact guarded_step.mpr (step_at he hat)
  · obtain ⟨-, hnext⟩ := guarded_step.mp (r.path.step_of_mem hx)
    rw [← hnext]
    exact next_elsewhere hnone

theorem written_of_run (r : Run networkMachine) :
    r.final.sent = r.transitions.filterMap fun x => x.source.writes x.label := by
  have hflow := r.path.flow Network.sent (fun _ => [])
    (fun x => (x.source.writes x.label).toList) fun x hx => by
      obtain ⟨-, hnext⟩ := guarded_step.mp (r.path.step_of_mem hx)
      rw [← hnext, next_sent]
      rfl
  have hstart : r.start.sent = [] := by rw [show r.start = _ from r.starts]
  have hnone : r.transitions.flatMap (fun _ => ([] : List Packet)) = [] :=
    List.flatMap_eq_nil_iff.mpr fun _ _ => rfl
  rw [hstart, ← List.filterMap_eq_flatMap_toList, hnone] at hflow
  exact hflow

theorem sent_of_arrives (r : Run networkMachine) {a b : SocketAddr} {n : ℕ} {bytes : Bytes}
    {x : Transition Network NetworkEvent} (hx : x ∈ r.transitions)
    (harrives : x.label.arrives a b = some (n, bytes)) :
    r.final.sent[n]? = some ⟨a, b, bytes⟩ := by
  have hgrows := r.path.relates (R := fun s t => s.sent <+: t.sent) (fun _ => List.prefix_refl _)
    (fun _ _ _ => List.IsPrefix.trans) (fun y hy => by
      obtain ⟨-, hnext⟩ := guarded_step.mp (r.path.step_of_mem hy)
      rw [← hnext, next_sent]
      exact List.prefix_append _ _) x hx
  obtain ⟨he, -⟩ := guarded_step.mp (r.path.step_of_mem hx)
  cases hlabel : x.label with
  | arrive m packet =>
    rw [hlabel] at he harrives
    obtain ⟨⟨rfl, rfl⟩, hentry⟩ := Option.ite_none_right_eq_some.mp harrives
    obtain ⟨rfl, rfl⟩ := Prod.mk.inj (Option.some.inj hentry)
    obtain ⟨more, hmore⟩ := hgrows.1
    obtain ⟨hlt, -⟩ := List.getElem?_eq_some_iff.mp he.1
    rw [← hmore, List.getElem?_append_left hlt]
    exact he.1
  | socket | pollWrite | send | sendTo =>
    rw [hlabel] at harrives
    cases harrives

/-- An arrival from an address is what the read task at the other address gets from there. -/
theorem arrives_bytes (a b : SocketAddr) (he : s.enabled e) :
    (e.arrives a b).map Prod.snd = (e.at b).bind (Event.datagramFrom a) := by
  cases e with
  | arrive n packet =>
    by_cases ha : packet.sender = a <;> by_cases hb : packet.target = b <;>
      simp [NetworkEvent.arrives, NetworkEvent.at, Event.datagramFrom, ha, hb]
  | socket addr e =>
    have hnone : e.datagramFrom a = none := by
      cases e with
      | datagram bytes remote => cases he.1
      | _ => rfl
    by_cases hb : addr = b <;> simp [NetworkEvent.arrives, NetworkEvent.at, hnone, hb]
  | pollWrite | send | sendTo => rfl

end Network

/-- Whatever the network loses, repeats and reorders, a connection reads what has arrived from its
remote, in the order of arrival, and all of this was written for this address by connections of
the remote. Where nothing is repeated or overtaken on the way, it reads in the order of writing. -/
theorem reads_in_order (r : Run networkMachine) (b : SocketAddr) (q : ℕ) :
    let a := ((r.final.sockets b).queues q).remote
    let written := r.transitions.filterMap fun x => x.source.writes x.label
    let arrivals := r.transitions.filterMap fun x => x.label.arrives a b
    let read := r.transitions.filterMap fun x => x.label.readsAt b q
    read.Sublist (arrivals.map Prod.snd) ∧
      (∀ x ∈ arrivals, written[x.1]? = some ⟨a, b, x.2⟩) ∧
      (arrivals.Pairwise (fun x y => x.1 < y.1) →
        read.Sublist ((written.filter fun packet => packet.sender = a ∧ packet.target = b).map
          Packet.bytes)) := by
  intro a written arrivals read
  have hread : read.Sublist (arrivals.map Prod.snd) := by
    have hpath := Network.socketPath r b
    have hleads := (Socket.ReadInOrder.of_path hpath q).leads.sublist
    have htaken := (Socket.Demultiplexed.of_path hpath).apart.taken q
    have hall := (hleads.trans htaken).map Datagram.bytes
    rw [Socket.received_of_path hpath, Socket.readBy,
      Network.filterMap_socketSteps r b (Event.reads q),
      Network.filterMap_socketSteps r b (Event.datagramFrom a), List.map_filterMap] at hall
    have harrivals : arrivals.map Prod.snd =
        r.transitions.filterMap fun x => (x.label.at b).bind (Event.datagramFrom a) := by
      rw [List.map_filterMap]
      exact List.filterMap_congr fun x hx =>
        Network.arrives_bytes a b (guarded_step.mp (r.path.step_of_mem hx)).1
    rw [harrivals]
    have hlog : read = r.transitions.filterMap fun x =>
        ((x.label.at b).bind (Event.reads q)).map Datagram.bytes :=
      List.filterMap_congr fun x _ => Option.map_bind.symm
    rw [hlog]
    exact hall
  have hplace : ∀ x ∈ arrivals, written[x.1]? = some ⟨a, b, x.2⟩ := by
    intro x hx
    obtain ⟨y, hy, harrives⟩ := List.mem_filterMap.mp hx
    rw [show written = r.final.sent from (Network.written_of_run r).symm]
    exact Network.sent_of_arrives r hy harrives
  refine ⟨hread, hplace, fun hgrow => ?_⟩
  let entries : List (ℕ × Packet) := arrivals.map fun x => (x.1, ⟨a, b, x.2⟩)
  have hentries : (entries.map Prod.snd).Sublist written := by
    refine sublist_of_positions (List.pairwise_map.mpr hgrow) fun x hx => ?_
    obtain ⟨y, hy, rfl⟩ := List.mem_map.mp hx
    exact hplace y hy
  have hown : (entries.map Prod.snd).filter
      (fun packet => packet.sender = a ∧ packet.target = b) = entries.map Prod.snd := by
    rw [List.filter_eq_self]
    intro packet hpacket
    obtain ⟨_, hentry, rfl⟩ := List.mem_map.mp hpacket
    obtain ⟨y, -, rfl⟩ := List.mem_map.mp hentry
    simp
  have hbytes : (entries.map Prod.snd).map Packet.bytes = arrivals.map Prod.snd := by
    simp [entries]
  have hsub := (hentries.filter fun packet => packet.sender = a ∧ packet.target = b).map
    Packet.bytes
  rw [hown, hbytes] at hsub
  exact hread.trans hsub

end Uip.Io
