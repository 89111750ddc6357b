import Uip.DaemonInvariant

/-! Which task a step of a daemon belongs to, and what it leaves of the others. -/
namespace Uip
open TransitionSystem Transport

variable {tls : Tls} {pack : MessagePack}

def DaemonEvent.onTask : DaemonEvent tls → Option ℕ
  | .take n .. | .upstream n _ | .process n _ | .panicked n .. | .found n .. | .missing n ..
  | .unconnectable n .. | .choose n .. | .relayKnown n .. | .relayUnknown n .. | .relayOpen n ..
  | .opened n .. | .openFailed n .. | .send n .. | .sendFailed n .. | .returned n .. => some n
  | .socket .. | .openSocket _ | .closeSocket .. | .sendFrame .. | .requestPeerInfo _
  | .getConnection _ | .connectToRelays _ => none

def Task.returned (task : Task) : Prop :=
  task.phase = .idle ∧ match task.loop with
    | .once => True
    | .relays _ rest => rest = []
    | .deliver _ => False

namespace Daemon

variable {d : Daemon tls} {e : DaemonEvent tls} {k q n : ℕ}

theorem nextTask_le (d : Daemon tls) (e : DaemonEvent tls) :
    d.nextTask ≤ (d.next pack e).nextTask := by
  rw [next_nextTask]
  cases e with
  | openSocket => exact Nat.le_add_right _ 2
  | sendFrame | getConnection | connectToRelays => exact Nat.le_succ _
  | requestPeerInfo id =>
    simp only [effect]
    split
    · exact Nat.le_succ _
    · exact Nat.le_refl _
  | process n delivery =>
    simp only [effect, processDelivery]
    split <;> exact Nat.le_refl _
  | _ => exact Nat.le_refl _

/-- A task stays as it is unless the step is its own or spawns it. -/
theorem tasks_next (d : Daemon tls) (e : DaemonEvent tls) (h : e.onTask ≠ some n)
    (hn : n < d.nextTask ∨ (d.next pack e).nextTask ≤ n) :
    (d.next pack e).tasks n = d.tasks n := by
  have hset : ∀ m task, e.onTask = some m → (d.setTask m task).tasks n = d.tasks n := by
    intro m task hm
    refine Function.update_of_ne ?_ _ _
    rintro rfl
    exact h hm
  have hspawn : ∀ task, n < d.nextTask ∨ d.nextTask + 1 ≤ n →
      (d.spawn task).tasks n = d.tasks n := fun task hne =>
    Function.update_of_ne (by omega) _ _
  rw [next_tasks]
  rw [next_nextTask] at hn
  cases e with
  | socket | closeSocket => rfl
  | openSocket address =>
    have hne : n < d.nextTask ∨ d.nextTask + 2 ≤ n := hn
    simp only [effect, openSocket, spawn, setTask]
    rw [Function.update_of_ne (by omega), Function.update_of_ne (by omega)]
  | sendFrame | getConnection | connectToRelays => exact hspawn _ hn
  | requestPeerInfo id =>
    simp only [effect] at hn ⊢
    split at hn
    · exact hspawn _ hn
    · rfl
  | process m delivery =>
    simp only [effect, processDelivery]
    split
    · exact hset m _ rfl
    · exact hset m _ rfl
    · rfl
  | relayKnown m | relayUnknown m | relayOpen m => exact hset m _ rfl
  | _ m => exact hset m _ rfl

theorem not_returned (he : d.enabled pack e) (h : e.onTask = some n) : ¬ (d.tasks n).returned := by
  have hadmits := he.1
  cases e with
  | take m k delivery =>
    obtain rfl := Option.some.inj h
    rw [show d.tasks m = _ from hadmits]
    exact And.right
  | panicked m k delivery =>
    obtain rfl := Option.some.inj h
    rw [show d.tasks m = _ from hadmits.1]
    exact And.right
  | relayKnown m k relay rest | relayUnknown m k relay rest | relayOpen m k relay rest =>
    obtain rfl := Option.some.inj h
    rw [show d.tasks m = _ from hadmits.1]
    simp [Task.returned]
  | opened m k q session message | openFailed m k q message =>
    obtain rfl := Option.some.inj h
    simp [Task.returned, show (d.tasks m).phase = _ from hadmits]
  | send m k q frame | returned m k q =>
    obtain rfl := Option.some.inj h
    simp [Task.returned, show (d.tasks m).phase = _ from hadmits]
  | upstream m | process m | found m | missing m | unconnectable m | choose m | sendFailed m =>
    obtain rfl := Option.some.inj h
    simp [Task.returned, hadmits.1]
  | _ => cases h

theorem sending_event (he : d.enabled pack e) (htask : e.onTask = some n) {frame : Frame}
    (hphase : (d.tasks n).phase = .sending k q (some frame)) :
    e = .send n k q frame ∨ e = .sendFailed n k q frame := by
  have hadmits := he.1
  cases e with
  | take m j delivery =>
    obtain rfl := Option.some.inj htask
    rw [show d.tasks m = _ from hadmits] at hphase
    cases hphase
  | panicked m j delivery =>
    obtain rfl := Option.some.inj htask
    rw [show d.tasks m = _ from hadmits.1] at hphase
    cases hphase
  | relayKnown m j relay rest | relayUnknown m j relay rest | relayOpen m j relay rest =>
    obtain rfl := Option.some.inj htask
    rw [show d.tasks m = _ from hadmits.1] at hphase
    cases hphase
  | send m j p frame' =>
    obtain rfl := Option.some.inj htask
    obtain ⟨rfl, rfl, hframe⟩ := Phase.sending.inj (hphase.symm.trans hadmits)
    obtain rfl := Option.some.inj hframe
    exact .inl rfl
  | sendFailed m j p frame' =>
    obtain rfl := Option.some.inj htask
    obtain ⟨rfl, rfl, hframe⟩ := Phase.sending.inj (hphase.symm.trans hadmits.1)
    obtain rfl := Option.some.inj hframe
    exact .inr rfl
  | upstream m | process m | found m | missing m | unconnectable m | choose m =>
    obtain rfl := Option.some.inj htask
    exact absurd (hphase.symm.trans hadmits.1) (by simp)
  | opened m | openFailed m | returned m =>
    obtain rfl := Option.some.inj htask
    exact absurd (hphase.symm.trans hadmits) (by simp)
  | _ => cases htask

/-- The numbers that no task has yet. -/
def Fresh (d : Daemon tls) : Prop := ∀ n, d.nextTask ≤ n → d.tasks n = ⟨.once, .idle⟩

theorem Fresh.new (network : NetworkState) : (new tls network).Fresh := fun _ _ => rfl

theorem Fresh.next (h : d.Fresh) (he : d.enabled pack e) : (d.next pack e).Fresh := by
  intro n hn
  have hold := h n (Nat.le_trans (d.nextTask_le e) hn)
  have hevent : e.onTask ≠ some n := by
    intro htask
    refine not_returned he htask ?_
    rw [hold]
    exact ⟨rfl, trivial⟩
  rw [tasks_next d e hevent (.inr hn), hold]

theorem Fresh.lt (h : d.Fresh) (hn : (d.tasks n).phase ≠ .idle) : n < d.nextTask := by
  by_contra hle
  rw [h n (Nat.le_of_not_lt hle)] at hn
  exact hn rfl

/-- What a step does to a task that makes a single call. -/
inductive CallStep (d : Daemon tls) (e : DaemonEvent tls) (n : ℕ) : Task → Prop
  | same : CallStep d e n (d.tasks n)
  | missing (host : Identifier) (message : Option Frame) (event : e = .missing n host message) :
      CallStep d e n ⟨.once, .connecting host message⟩
  | choose (k : ℕ) (host : Identifier) (address : SocketAddrV6) (message : Option Frame)
      (event : e = .choose n k host address message) :
      CallStep d e n ⟨.once, .handshake k (d.table k).io.nextQueue message⟩
  | sends (k q : ℕ) (message : Option Frame) : CallStep d e n ⟨.once, .sending k q message⟩
  | done : CallStep d e n ⟨.once, .idle⟩

theorem next_call (he : d.enabled pack e) (hloop : (d.tasks n).loop = .once)
    (hn : n < d.nextTask) (hphase : ∀ delivery, (d.tasks n).phase ≠ .delivering delivery) :
    CallStep d e n ((d.next pack e).tasks n) := by
  by_cases h : e.onTask = some n
  · -- The task keeps its loop where a step sets its phase.
    have hset : ∀ phase, CallStep d e n ⟨.once, phase⟩ →
        CallStep d e n ((d.setPhase n phase).tasks n) := by
      intro phase hstep
      simpa [setPhase, setTask, hloop] using hstep
    have hadmits := he.1
    cases e with
    | take m k delivery =>
      obtain rfl := Option.some.inj h
      rw [show d.tasks m = _ from hadmits] at hloop
      cases hloop
    | process m delivery =>
      obtain rfl := Option.some.inj h
      exact absurd hadmits.1 (hphase delivery)
    | panicked m k delivery =>
      obtain rfl := Option.some.inj h
      rw [show d.tasks m = _ from hadmits.1] at hloop
      cases hloop
    | relayKnown m k relay rest | relayUnknown m k relay rest
    | relayOpen m k relay rest address =>
      obtain rfl := Option.some.inj h
      rw [show d.tasks m = _ from hadmits.1] at hloop
      cases hloop
    | found m k q host message =>
      obtain rfl := Option.some.inj h
      exact hset _ (.sends k q message)
    | missing m host message =>
      obtain rfl := Option.some.inj h
      exact hset _ (.missing host message rfl)
    | choose m k host address message =>
      obtain rfl := Option.some.inj h
      exact hset _ (.choose k host address message rfl)
    | opened m k q session message =>
      obtain rfl := Option.some.inj h
      exact hset _ (.sends k q _)
    | upstream m | unconnectable m | openFailed m | send m | sendFailed m | returned m =>
      obtain rfl := Option.some.inj h
      exact hset _ .done
    | _ => cases h
  · rw [tasks_next d e h (.inl hn)]
    exact .same

end Daemon

end Uip
