import Uip.Daemon
import Uip.NetworkOwnership

/-! What one step of a daemon can change at its transport sockets, in its map of open sockets
and at its tasks, and how the models of the layers below are part of it. -/
namespace Uip
open TransitionSystem Transport

variable {tls : Tls} {pack : MessagePack}

def Phase.connects : Phase → Bool
  | .connecting .. | .handshake .. => true
  | _ => false

namespace Daemon

variable {d : Daemon tls} {e : DaemonEvent tls}

theorem mem_openSockets {k : ℕ} :
    k ∈ d.openSockets ↔ ∃ address, d.sockets.lookup address = some k := by
  simp only [openSockets, List.mem_map, Sigma.exists]
  constructor
  · rintro ⟨address, k', hm, rfl⟩
    exact ⟨address, AList.mem_lookup_iff.mpr hm⟩
  · rintro ⟨address, hl⟩
    exact ⟨address, k, AList.mem_lookup_iff.mp hl, rfl⟩

theorem processDelivery_table (n : ℕ) (delivery : Delivery) :
    (d.processDelivery pack n delivery).table = d.table := by
  unfold processDelivery
  split <;> rfl

theorem effect_table (d : Daemon tls) (e : DaemonEvent tls) :
    (d.effect pack e).table = match e with
      | .openSocket _ => Function.update d.table d.nextSocket (.new tls)
      | _ => d.table := by
  cases e with
  | process n delivery => exact processDelivery_table n delivery
  | requestPeerInfo id =>
    simp only [effect]
    split <;> rfl
  | _ => rfl

/-- A step leaves a transport socket alone, makes a step at it, or makes it. -/
theorem next_table (he : d.enabled pack e) (k : ℕ) :
    (d.next pack e).table k = d.table k ∨
    (∃ se, e.onSocket = some (k, se) ∧ (d.table k).enabled se ∧
      (d.next pack e).table k = (d.table k).next se) ∨
    ∃ address, e = .openSocket address ∧ k = d.nextSocket ∧
      (d.next pack e).table k = .new tls := by
  have hen := he.2
  cases hx : e.onSocket with
  | none =>
    simp only [next, hx, Option.elim_none, effect_table]
    cases e with
    | openSocket address =>
      by_cases hk : k = d.nextSocket
      · subst hk
        exact .inr (.inr ⟨address, rfl, rfl, Function.update_self ..⟩)
      · exact .inl (Function.update_of_ne hk _ _)
    | _ => exact .inl rfl
  | some x =>
    obtain ⟨j, se⟩ := x
    rw [hx] at hen
    simp only [next, hx, Option.elim_some, onTable]
    by_cases hk : k = j
    · subst hk
      exact .inr (.inl ⟨se, rfl, hen, Function.update_self ..⟩)
    · exact .inl (Function.update_of_ne hk _ _)

theorem opened_event (he : d.enabled pack e) {k q : ℕ} {session : Session tls}
    (hx : e.onSocket = some (k, .opened q session)) :
    ∃ n message, e = .opened n k q session message := by
  cases e with
  | socket j se =>
    obtain ⟨rfl, rfl⟩ := Prod.mk.inj (Option.some.inj hx)
    exact absurd he.1.2 (by simp [SocketEvent.internal])
  | opened n j p session' message =>
    obtain ⟨rfl, heq⟩ := Prod.mk.inj (Option.some.inj hx)
    obtain ⟨rfl, rfl⟩ := SocketEvent.opened.inj heq
    exact ⟨n, message, rfl⟩
  | _ => simp [DaemonEvent.onSocket] at hx

theorem onSocket_internal {k : ℕ} {se : SocketEvent tls} (hx : e.onSocket = some (k, se))
    (hinternal : se.internal = true) (hsend : ∀ q f, se ≠ .connection q (.send f)) :
    e = .socket k se := by
  cases e with
  | socket j se' =>
    obtain ⟨rfl, rfl⟩ := Prod.mk.inj (Option.some.inj hx)
    rfl
  | send n j q f =>
    obtain ⟨-, rfl⟩ := Prod.mk.inj (Option.some.inj hx)
    exact absurd rfl (hsend q f)
  | closeSocket | take | panicked | choose | relayOpen | opened | openFailed =>
    obtain ⟨-, rfl⟩ := Prod.mk.inj (Option.some.inj hx)
    cases hinternal
  | _ => cases hx

theorem onSocket_close (he : d.enabled pack e) {k : ℕ}
    (hx : e.onSocket = some (k, .close)) :
    ∃ address, e = .closeSocket address k := by
  cases e with
  | socket j se =>
    obtain ⟨rfl, rfl⟩ := Prod.mk.inj (Option.some.inj hx)
    exact absurd he.1.2 (by simp [SocketEvent.internal])
  | closeSocket address j =>
    obtain rfl : j = k := by simpa [DaemonEvent.onSocket] using hx
    exact ⟨address, rfl⟩
  | _ => simp [DaemonEvent.onSocket] at hx

theorem next_sockets (d : Daemon tls) (e : DaemonEvent tls) :
    (d.next pack e).sockets = match e with
      | .openSocket address => d.sockets.insert address d.nextSocket
      | .closeSocket address _ => d.sockets.erase address
      | _ => d.sockets := by
  cases e with
  | process n delivery =>
    simp only [next, effect, processDelivery]
    split <;> rfl
  | requestPeerInfo id =>
    simp only [next, effect]
    split <;> rfl
  | _ => rfl

theorem next_nextSocket (d : Daemon tls) (e : DaemonEvent tls) :
    (d.next pack e).nextSocket = match e with
      | .openSocket _ => d.nextSocket + 1
      | _ => d.nextSocket := by
  cases e with
  | process n delivery =>
    simp only [next, effect, processDelivery]
    split <;> rfl
  | requestPeerInfo id =>
    simp only [next, effect]
    split <;> rfl
  | _ => rfl

theorem nextSocket_le (d : Daemon tls) (e : DaemonEvent tls) :
    d.nextSocket ≤ (d.next pack e).nextSocket := by
  rw [next_nextSocket]
  split <;> omega

/-- The entries of the map of open sockets after a step. -/
theorem sockets_of_next {address : SocketAddrV6} {k : ℕ}
    (h : (d.next pack e).sockets.lookup address = some k) :
    (d.sockets.lookup address = some k ∧ e ≠ .closeSocket address k) ∨
      (e = .openSocket address ∧ k = d.nextSocket) := by
  rw [next_sockets] at h
  cases e with
  | openSocket a =>
    rw [HashMap.lookup_insert_if] at h
    split_ifs at h with ha
    · exact .inr ⟨by rw [ha], (Option.some.inj h).symm⟩
    · exact .inl ⟨h, by simp⟩
  | closeSocket a j =>
    rw [HashMap.lookup_erase_if] at h
    split_ifs at h with ha
    exact .inl ⟨h, fun heq => ha (DaemonEvent.closeSocket.inj heq).1.symm⟩
  | _ => exact .inl ⟨h, by simp⟩

theorem openSockets_of_next {k : ℕ} (hk : k ∈ (d.next pack e).openSockets) :
    k ∈ d.openSockets ∨ (d.next pack e).table k = .new tls := by
  obtain ⟨a, ha⟩ := mem_openSockets.mp hk
  rcases sockets_of_next ha with ⟨hold, _⟩ | ⟨rfl, rfl⟩
  · exact .inl (mem_openSockets.mpr ⟨a, hold⟩)
  · exact .inr (Function.update_self ..)

/-- A connection is live after a step if it was so before, or if its handshake has just ended. -/
theorem alive_of_next {k q : ℕ} (he : d.enabled pack e) (hopen : k ∈ (d.next pack e).openSockets)
    (h : (((d.next pack e).table k).endpoints q).satisfies Connection.alive) :
    (k ∈ d.openSockets ∧ ((d.table k).endpoints q).satisfies Connection.alive) ∨
      (∃ session, e = .socket k (.accepted q session)) ∨
      ∃ n session message, e = .opened n k q session message := by
  obtain ⟨c', hc', halive⟩ := Endpoint.satisfies_iff.mp h
  have hold : k ∈ d.openSockets := by
    rcases openSockets_of_next hopen with hold | hnew
    · exact hold
    · rw [hnew] at hc'
      cases hc'
  rcases next_table he k with hs | ⟨se, hx, hen, hs⟩ | ⟨_, _, _, hs⟩
  · rw [hs] at h
    exact .inl ⟨hold, h⟩
  · rw [hs] at hc'
    rcases Socket.connection_of_next hen hc' with ⟨c, hc, hkeeps⟩ | ⟨session, id, rfl, _, _⟩ |
      ⟨session, id, address, rfl, _, _⟩
    · exact .inl ⟨hold, Endpoint.satisfies_iff.mpr ⟨c, hc, hkeeps.alive halive⟩⟩
    · exact .inr (.inl ⟨session, onSocket_internal hx rfl (by simp)⟩)
    · obtain ⟨n, message, rfl⟩ := opened_event he hx
      exact .inr (.inr ⟨n, session, message, rfl⟩)
  · rw [hs] at hc'
    cases hc'

/-- What a step can do to one task. -/
inductive TaskStep (d : Daemon tls) (e : DaemonEvent tls) (n : ℕ) : Task → Prop
  | same : TaskStep d e n (d.tasks n)
  | settles (task : Task) (quiet : task.phase.connects = false) : TaskStep d e n task
  | missing (host : Identifier) (message : Option Frame) (event : e = .missing n host message) :
      TaskStep d e n ⟨(d.tasks n).loop, .connecting host message⟩
  | choose (k : ℕ) (host : Identifier) (address : SocketAddrV6) (message : Option Frame)
      (event : e = .choose n k host address message) :
      TaskStep d e n ⟨(d.tasks n).loop, .handshake k (d.table k).io.nextQueue message⟩
  | relay (k q : ℕ) (rest : List Identifier) :
      TaskStep d e n ⟨.relays k rest, .handshake k q none⟩

theorem TaskStep.update {m : ℕ} {task : Task} (h : TaskStep d e m task) (n : ℕ) :
    TaskStep d e n (Function.update d.tasks m task n) := by
  by_cases hn : n = m
  · subst hn
    rwa [Function.update_self]
  · rw [Function.update_of_ne hn]
    exact .same

theorem TaskStep.setPhase {m : ℕ} {phase : Phase} (h : phase.connects = false) (n : ℕ) :
    TaskStep d e n ((d.setPhase m phase).tasks n) :=
  TaskStep.update (.settles _ h) n

theorem next_tasks (d : Daemon tls) (e : DaemonEvent tls) :
    (d.next pack e).tasks = (d.effect pack e).tasks := rfl

theorem next_nextTask (d : Daemon tls) (e : DaemonEvent tls) :
    (d.next pack e).nextTask = (d.effect pack e).nextTask := rfl

theorem next_task (d : Daemon tls) (e : DaemonEvent tls) (n : ℕ) :
    TaskStep d e n ((d.next pack e).tasks n) := by
  rw [next_tasks]
  cases e with
  | socket | closeSocket => exact .same
  | openSocket address =>
    by_cases hn : n = d.nextTask + 1
    · subst hn
      refine .settles _ ?_
      simp [effect, openSocket, spawn, setTask, Phase.connects]
    · have hfirst : ((d.effect pack (.openSocket address)).tasks) n =
          Function.update d.tasks d.nextTask _ n := Function.update_of_ne hn _ _
      rw [hfirst]
      exact TaskStep.update (.settles _ rfl) n
  | sendFrame | getConnection | connectToRelays => exact TaskStep.update (.settles _ rfl) n
  | requestPeerInfo id =>
    simp only [effect]
    split
    · exact TaskStep.update (.settles _ rfl) n
    · exact .same
  | process m delivery =>
    simp only [effect, processDelivery]
    split
    · exact TaskStep.setPhase rfl n
    · exact TaskStep.setPhase rfl n
    · exact .same
  | missing m host message => exact TaskStep.update (.missing host message rfl) n
  | choose m k host address message =>
    exact TaskStep.update (.choose k host address message rfl) n
  | relayKnown | relayUnknown => exact TaskStep.update (.settles _ rfl) n
  | relayOpen m k relay rest address => exact TaskStep.update (.relay k _ rest) n
  | _ => exact TaskStep.setPhase rfl n

/-- Every transport socket is in a state of its own model, and belongs to one address. -/
structure WellFormed (d : Daemon tls) : Prop where
  table : ∀ k, Reachable (socketMachine tls) (d.table k)
  lt : ∀ address k, d.sockets.lookup address = some k → k < d.nextSocket
  unique : ∀ a b k, d.sockets.lookup a = some k → d.sockets.lookup b = some k → a = b

theorem WellFormed.new (network : NetworkState) : (new tls network).WellFormed where
  table _ := .start rfl
  lt := by simp [Daemon.new, AList.lookup_empty]
  unique := by simp [Daemon.new, AList.lookup_empty]

theorem WellFormed.next (h : d.WellFormed) (he : d.enabled pack e) :
    (d.next pack e).WellFormed := by
  refine ⟨fun k => ?_, fun address k hk => ?_, fun a b k ha hb => ?_⟩
  · rcases next_table he k with hs | ⟨se, _, hen, hs⟩ | ⟨_, _, _, hs⟩
    · rw [hs]
      exact h.table k
    · rw [hs]
      exact (h.table k).next (guarded_step.mpr ⟨hen, rfl⟩)
    · rw [hs]
      exact .start rfl
  · rcases sockets_of_next hk with ⟨hold, _⟩ | ⟨rfl, rfl⟩
    · exact Nat.lt_of_lt_of_le (h.lt address k hold) (d.nextSocket_le e)
    · rw [next_nextSocket]
      exact Nat.lt_succ_self _
  · rcases sockets_of_next ha with ⟨holda, _⟩ | ⟨rfl, rfl⟩
    · rcases sockets_of_next hb with ⟨holdb, _⟩ | ⟨rfl, rfl⟩
      · exact h.unique a b k holda holdb
      · exact absurd (h.lt a _ holda) (Nat.lt_irrefl _)
    · rcases sockets_of_next hb with ⟨holdb, _⟩ | ⟨heq, _⟩
      · exact absurd (h.lt b _ holdb) (Nat.lt_irrefl _)
      · exact DaemonEvent.openSocket.inj heq

theorem WellFormed.of_reachable (h : Reachable (daemonMachine tls pack) d) : d.WellFormed := by
  apply h.guarded_induct
  · rintro d ⟨network, rfl⟩
    exact .new network
  · exact fun d e hd he => hd.next he

theorem WellFormed.io_reachable (h : d.WellFormed) (k : ℕ) :
    Reachable Io.machine (d.table k).io :=
  acceptMachine_refines.reachable (socketMachine_refines.reachable (h.table k))

theorem WellFormed.owners (h : d.WellFormed) (k : ℕ) : (d.table k).Owners :=
  .of_reachable (h.table k)

theorem next_network (d : Daemon tls) (e : DaemonEvent tls) :
    (d.next pack e).network = d.network ∨
    ∃ n delivery reply, e = .process n delivery ∧
      d.network.processControlMessage pack delivery.hostId delivery.data =
        some ((d.next pack e).network, reply) := by
  cases e with
  | process n delivery =>
    simp only [next, effect, processDelivery]
    split
    · exact .inr ⟨n, delivery, _, rfl, by assumption⟩
    · exact .inr ⟨n, delivery, _, rfl, by assumption⟩
    · exact .inl rfl
  | requestPeerInfo id =>
    left
    simp only [next, effect]
    split <;> rfl
  | _ => exact .inl rfl

end Daemon

/-- The network state of a daemon changes by processing control messages only. -/
theorem daemonMachine_refines :
    Refines (daemonMachine tls pack) (NetworkState.controlMachine pack) Daemon.network := by
  refine ⟨fun _ _ => trivial, fun d e t hst => ?_⟩
  obtain ⟨he, rfl⟩ := guarded_step.mp hst
  rcases d.next_network e with hs | ⟨n, delivery, reply, rfl, hp⟩
  · exact ⟨[], by rw [hs, exec_nil]⟩
  · have hstep : (NetworkState.controlMachine pack).step d.network (delivery.hostId, delivery.data)
        = some _ := NetworkState.controlMachine_step.mpr ⟨reply, hp⟩
    exact ⟨[(delivery.hostId, delivery.data)], exec_step hstep []⟩

end Uip
