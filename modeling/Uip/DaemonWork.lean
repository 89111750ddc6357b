import Uip.DaemonRest
import Uip.TransportWork

/-! The tasks of a daemon make finitely many steps without the network, timers, handshakes and
calls: then each of them waits. -/
namespace Uip
open TransitionSystem Transport

variable {tls : Tls} {pack : MessagePack}

def Loop.work : Loop → ℕ
  | .relays _ rest => rest.length
  | .once | .deliver _ => 0

/-- A control message is answered by one frame at most, for which the sink has two more steps. -/
def Phase.work : Phase → ℕ
  | .delivering _ => 5
  | .lookup .. => 4
  | .sending .. => 3
  | .connecting .. => 1
  | .idle | .handshake .. | .ended => 0

def Task.work (task : Task) : ℕ := task.loop.work + task.phase.work

namespace Daemon

variable {d : Daemon tls} {e : DaemonEvent tls} {k n : ℕ}

def unread (d : Daemon tls) : ℕ := ∑ k ∈ Finset.range d.nextSocket, (d.table k).unread

def tasksWork (d : Daemon tls) : ℕ := ∑ n ∈ Finset.range d.nextTask, (d.tasks n).work

def socketsWork (d : Daemon tls) : ℕ := ∑ k ∈ Finset.range d.nextSocket, (d.table k).work

def work (d : Daemon tls) : ℕ := d.tasksWork + d.socketsWork

section Parts

variable (prompt : e.prompt = true)

include prompt

theorem nextSocket_prompt : (d.next pack e).nextSocket = d.nextSocket := by
  rw [next_nextSocket]
  cases e with
  | openSocket => cases prompt
  | _ => rfl

theorem nextTask_prompt : (d.next pack e).nextTask = d.nextTask := by
  rw [next_nextTask]
  cases e with
  | openSocket | sendFrame | getConnection | connectToRelays | requestPeerInfo => cases prompt
  | process n delivery =>
    simp only [effect, processDelivery]
    split <;> rfl
  | _ => rfl

theorem tasksWork_change (hf : d.Fresh) (he : d.enabled pack e) (hn : e.onTask = some n) :
    (d.next pack e).tasksWork + (d.tasks n).work =
      d.tasksWork + ((d.next pack e).tasks n).work := by
  have hlt : n < d.nextTask := by
    by_contra hlt
    refine not_returned he hn ?_
    rw [hf n (Nat.le_of_not_lt hlt)]
    exact ⟨rfl, trivial⟩
  rw [tasksWork, tasksWork, nextTask_prompt prompt]
  refine sum_range_change hlt fun j hj => congrArg Task.work ?_
  refine tasks_next d e (by simp [hn, hj.symm]) ?_
  rw [nextTask_prompt prompt]
  exact Nat.lt_or_ge j d.nextTask

/-- Where the step is made at a transport socket, nothing changes at the others. -/
theorem sum_table_change (measure : Socket tls → ℕ) (hs : d.Staffed) (he : d.enabled pack e)
    {se : SocketEvent tls} (hx : e.onSocket = some (k, se)) :
    ∑ j ∈ Finset.range (d.next pack e).nextSocket, measure ((d.next pack e).table j) +
        measure (d.table k) =
      ∑ j ∈ Finset.range d.nextSocket, measure (d.table j) + measure ((d.table k).next se) := by
  rw [nextSocket_prompt prompt, ← table_at hx]
  refine sum_range_change (hs.onSocket_lt he hx) fun j hj => congrArg measure ?_
  simp only [Daemon.next, hx, Option.elim_some, onTable, Function.update_of_ne hj]

theorem sum_table_same (measure : Socket tls → ℕ) (hx : e.onSocket = none) :
    ∑ j ∈ Finset.range (d.next pack e).nextSocket, measure ((d.next pack e).table j) =
      ∑ j ∈ Finset.range d.nextSocket, measure (d.table j) := by
  have htable : (d.next pack e).table = d.table := by
    simp only [Daemon.next, hx, Option.elim_none, effect_table]
    cases e with
    | openSocket => cases prompt
    | _ => rfl
  rw [nextSocket_prompt prompt, htable]

/-- A task comes nearer to where it waits with every step that it makes by itself. -/
theorem task_work (he : d.enabled pack e) (hn : e.onTask = some n) (hx : e.onSocket = none) :
    ((d.next pack e).tasks n).work < (d.tasks n).work := by
  rw [next_tasks]
  cases e with
  | process m delivery =>
    obtain rfl := Option.some.inj hn
    obtain ⟨⟨network, reply⟩, hresult⟩ := Option.isSome_iff_exists.mp he.1.2.2
    cases reply <;>
      simp [effect, processDelivery, hresult, setPhase, setTask, Task.work, he.1.1, Phase.work]
  | upstream m | found m | missing m | unconnectable m | sendFailed m =>
    obtain rfl := Option.some.inj hn
    simp [effect, setPhase, setTask, Task.work, he.1.1, Phase.work]
  | returned m =>
    obtain rfl := Option.some.inj hn
    simp [effect, setPhase, setTask, Task.work, show (d.tasks m).phase = _ from he.1, Phase.work]
  | relayKnown m | relayUnknown m =>
    obtain rfl := Option.some.inj hn
    simp [effect, setTask, Task.work, he.1.1, Loop.work]
  | take | panicked | choose | relayOpen | send => cases hx
  | opened | openFailed => cases prompt
  | _ => cases hn

theorem task_socket_work (hs : d.Staffed) (he : d.enabled pack e) (hn : e.onTask = some n)
    {se : SocketEvent tls} (hx : e.onSocket = some (k, se)) :
    ((d.next pack e).tasks n).work + ((d.table k).next se).work <
      (d.tasks n).work + (d.table k).work := by
  have howners := Socket.Owners.of_reachable (hs.wellFormed.table k)
  have hse := enabled_at he hx
  rw [next_tasks]
  cases e with
  | take m j delivery =>
    obtain rfl := Option.some.inj hn
    obtain ⟨rfl, rfl⟩ := Prod.mk.inj (Option.some.inj hx)
    have hsocket := Socket.work_takeDelivery hse
    simp only [effect, setPhase, setTask, Function.update_self, Task.work,
      show d.tasks m = _ from he.1, Loop.work, Phase.work]
    omega
  | panicked m j delivery =>
    obtain rfl := Option.some.inj hn
    obtain ⟨rfl, rfl⟩ := Prod.mk.inj (Option.some.inj hx)
    have hsocket := Socket.work_dropReceiver (s := d.table j)
    simp only [effect, setPhase, setTask, Function.update_self, Task.work, he.1.1, Loop.work,
      Phase.work]
    omega
  | choose m j host address message =>
    obtain rfl := Option.some.inj hn
    obtain ⟨rfl, rfl⟩ := Prod.mk.inj (Option.some.inj hx)
    rw [Socket.work_openConnection]
    simp only [effect, setPhase, setTask, Function.update_self, Task.work, he.1.1, Phase.work]
    omega
  | relayOpen m j relay rest address =>
    obtain rfl := Option.some.inj hn
    obtain ⟨rfl, rfl⟩ := Prod.mk.inj (Option.some.inj hx)
    rw [Socket.work_openConnection]
    simp only [effect, setTask, Function.update_self, Task.work, he.1.1, Loop.work, Phase.work,
      List.length_cons]
    omega
  | send m j q frame =>
    obtain rfl := Option.some.inj hn
    obtain ⟨rfl, rfl⟩ := Prod.mk.inj (Option.some.inj hx)
    rw [Socket.work_send howners hse]
    simp only [effect, setPhase, setTask, Function.update_self, Task.work,
      show (d.tasks m).phase = _ from he.1, Phase.work]
    omega
  | upstream | process | found | missing | unconnectable | sendFailed | returned | relayKnown
  | relayUnknown => cases hx
  | opened | openFailed => cases prompt
  | _ => cases hn

end Parts

theorem unread_next_le (hs : d.Staffed) (prompt : e.prompt = true) (he : d.enabled pack e) :
    (d.next pack e).unread ≤ d.unread := by
  cases hx : e.onSocket with
  | none => exact Nat.le_of_eq (sum_table_same prompt Socket.unread hx)
  | some x =>
    obtain ⟨k, se⟩ := x
    have howners := Socket.Owners.of_reachable (hs.wellFormed.table k)
    have hsum := sum_table_change prompt Socket.unread hs he hx
    have hsocket : ((d.table k).next se).unread ≤ (d.table k).unread := by
      refine Socket.unread_next_le howners (enabled_at he hx) ?_
      rintro bytes remote rfl
      cases e with
      | socket j se =>
        obtain ⟨-, rfl⟩ := Prod.mk.inj (Option.some.inj hx)
        cases prompt
      | _ => cases hx
    rw [unread, unread]
    omega

theorem lowers (hs : d.Staffed) (prompt : e.prompt = true) (he : d.enabled pack e) :
    (d.next pack e).unread < d.unread ∨
      (d.next pack e).unread ≤ d.unread ∧ (d.next pack e).work < d.work := by
  have hunread := unread_next_le hs prompt he
  cases hn : e.onTask with
  | none =>
    cases e with
    | socket k se =>
      have howners := Socket.Owners.of_reachable (hs.wellFormed.table k)
      have hdatagrams := sum_table_change prompt Socket.unread hs he rfl
      have hsteps := sum_table_change prompt Socket.work hs he rfl
      have htasks : (d.next pack (.socket k se)).tasksWork = d.tasksWork := rfl
      rcases Socket.lowers howners prompt he.2 with hless | ⟨-, hless⟩
      · left
        rw [unread, unread]
        omega
      · refine .inr ⟨hunread, ?_⟩
        rw [work, work, htasks, socketsWork, socketsWork]
        omega
    | openSocket | closeSocket | sendFrame | requestPeerInfo | getConnection
    | connectToRelays => cases prompt
    | _ => cases hn
  | some n =>
    right
    refine ⟨hunread, ?_⟩
    have htasks := tasksWork_change prompt hs.fresh he hn
    cases hx : e.onSocket with
    | none =>
      have hsteps : (d.next pack e).socketsWork = d.socketsWork :=
        sum_table_same prompt Socket.work hx
      have htask := task_work prompt he hn hx
      rw [work, work]
      omega
    | some x =>
      obtain ⟨k, se⟩ := x
      have hsteps := sum_table_change prompt Socket.work hs he hx
      have hboth := task_socket_work prompt hs he hn hx
      rw [work, work, socketsWork, socketsWork]
      omega

end Daemon

/-- The daemon while only its tasks go on, and the channel upstream has `room` or is full. -/
def promptMachine (tls : Tls) (pack : MessagePack) (room : Bool) :
    Machine (Daemon tls) (DaemonEvent tls) :=
  (daemonMachine tls pack).restrict fun _ e => e.goesOn room

namespace Daemon

variable {d t : Daemon tls} {e : DaemonEvent tls} {room : Bool}

theorem prompt_step : (promptMachine tls pack room).step d e = some t ↔
    e.goesOn room = true ∧ (daemonMachine tls pack).step d e = some t := by
  simp [promptMachine, Machine.restrict]

theorem atRest_of_stuck (stuck : ∀ e, (promptMachine tls pack room).step d e = none) :
    d.AtRest pack room := by
  intro e goes he
  have hnext := prompt_step.mpr ⟨goes, guarded_step.mpr ⟨he, rfl⟩⟩
  cases hnext.symm.trans (stuck e)

end Daemon

/-- Where the network, timers, handshakes and calls bring nothing, the tasks of a daemon cannot go
on for ever, in whatever order they are scheduled and whether or not there is room upstream, and
lead to a state in which none can go on. -/
theorem daemon_settles {d : Daemon tls} (h : Reachable (daemonMachine tls pack) d) (room : Bool) :
    Terminates (promptMachine tls pack room) d ∧
      ∃ t trace, Path (promptMachine tls pack room) d trace t ∧ t.AtRest pack room := by
  have hterminates : Terminates (promptMachine tls pack room) d := by
    apply terminates_of_lowers (P := Daemon.Staffed) Daemon.unread Daemon.work
    · intro s e t hs hst
      obtain ⟨goes, hnext⟩ := Daemon.prompt_step.mp hst
      obtain ⟨he, rfl⟩ := guarded_step.mp hnext
      exact ⟨hs.next he, Daemon.lowers hs (prompt_of_goesOn goes) he⟩
    · exact .of_reachable h
  obtain ⟨t, trace, path, hstuck⟩ := hterminates.exists_stuck
  exact ⟨hterminates, t, trace, path, Daemon.atRest_of_stuck hstuck⟩

/-- A daemon that is to look for a host settles. -/
theorem daemon_settles_calling : ∃ d : Daemon keyTls,
    (d.tasks 2).phase = .lookup digestTwo (some (.data 5 6 [])) ∧ ∀ room,
      Terminates (promptMachine keyTls waitingPack room) d ∧
        ∃ t trace, Path (promptMachine keyTls waitingPack room) d trace t ∧
          t.AtRest waitingPack room := by
  have hinit : (daemonMachine keyTls waitingPack).init (.new keyTls waitingNetwork) := ⟨_, rfl⟩
  obtain ⟨d, hd, hphase⟩ := exec_reachable hinit (unaddressedEvents.take 2)
    (p := fun d => decide ((d.tasks 2).phase = .lookup digestTwo (some (.data 5 6 []))))
    (by decide +kernel)
  exact ⟨d, of_decide_eq_true hphase, daemon_settles hd⟩

end Uip
