import Uip.DaemonTasks
import Uip.DaemonWait
import Uip.TransportOrder

/-!
# What a daemon does with the frames of its sockets

A run of a daemon is a run of each of its transport sockets, and the deliver task of a socket
handles the tuples of its data channel one by one: control messages are processed, all others
go upstream.
-/
namespace Uip
open TransitionSystem Transport

variable {tls : Tls} {pack : MessagePack}

def Loop.socket : Loop → Option ℕ
  | .once => none
  | .deliver k | .relays k _ => some k

def Phase.socket : Phase → Option ℕ
  | .handshake k _ _ | .sending k _ _ => some k
  | _ => none

def Task.uses (task : Task) (k : ℕ) : Prop := task.loop.socket = some k ∨ task.phase.socket = some k

/-- The tuple in the hands of a task. -/
def Phase.hand : Phase → List Delivery
  | .delivering delivery => [delivery]
  | _ => []

def DaemonEvent.at (k : ℕ) (e : DaemonEvent tls) : Option (SocketEvent tls) :=
  (e.onSocket.filter fun x => x.1 = k).map Prod.snd

theorem DaemonEvent.at_eq_some {k : ℕ} {e : DaemonEvent tls} {se : SocketEvent tls} :
    e.at k = some se ↔ e.onSocket = some (k, se) := by
  simp only [DaemonEvent.at, Option.map_eq_some_iff, Option.filter_eq_some_iff, Prod.exists,
    decide_eq_true_eq]
  constructor
  · rintro ⟨j, se', ⟨hx, rfl⟩, rfl⟩
    exact hx
  · exact fun hx => ⟨k, se, ⟨hx, rfl⟩, rfl⟩

namespace DaemonEvent

def takes (n : ℕ) : DaemonEvent tls → Option Delivery
  | .take m _ delivery => if m = n then some delivery else none
  | _ => none

def forwards (n : ℕ) : DaemonEvent tls → Option Delivery
  | .upstream m delivery => if m = n then some delivery else none
  | _ => none

def processes (n : ℕ) : DaemonEvent tls → Option Delivery
  | .process m delivery | .panicked m _ delivery => if m = n then some delivery else none
  | _ => none

def handles (n : ℕ) (e : DaemonEvent tls) : Option Delivery := (e.forwards n).or (e.processes n)

variable {n : ℕ} {e : DaemonEvent tls}

theorem takes_eq_none (h : e.onTask ≠ some n) : e.takes n = none := by
  cases e with
  | take m k delivery => simpa [onTask, takes] using h
  | _ => rfl

theorem handles_eq_none (h : e.onTask ≠ some n) : e.handles n = none := by
  cases e with
  | upstream m delivery | process m delivery | panicked m k delivery =>
    have hm : m ≠ n := by simpa [onTask] using h
    simp [handles, forwards, processes, hm]
  | _ => rfl

end DaemonEvent

namespace Daemon

variable {d : Daemon tls} {e : DaemonEvent tls} {k n : ℕ}

/-- The sockets that the tasks of a daemon work at have been opened, and each of them has one
deliver task. -/
structure Staffed (d : Daemon tls) : Prop where
  wellFormed : d.WellFormed
  unopened : ∀ k, d.nextSocket ≤ k → d.table k = .new tls
  fresh : d.Fresh
  uses : ∀ n k, (d.tasks n).uses k → k < d.nextSocket
  unique : ∀ n m k, (d.tasks n).loop = .deliver k → (d.tasks m).loop = .deliver k → n = m

theorem Staffed.new (network : NetworkState) : (new tls network).Staffed where
  wellFormed := .new network
  unopened _ _ := rfl
  fresh := .new network
  uses n k h := by rcases h with h | h <;> cases h
  unique n m k h := by cases h

theorem uses_setTask {m : ℕ} {task : Task} (h : ((d.setTask m task).tasks n).uses k) :
    (d.tasks n).uses k ∨ task.uses k := by
  by_cases hn : n = m
  · subst hn
    simp only [setTask, Function.update_self] at h
    exact .inr h
  · simp only [setTask, Function.update_of_ne hn] at h
    exact .inl h

/-- Whatever a task works at has been worked at before, or is open, or new. -/
theorem uses_of_next (he : d.enabled pack e) (h : ((d.next pack e).tasks n).uses k) :
    (∃ m, (d.tasks m).uses k) ∨ k ∈ d.openSockets ∨
      ∃ address, e = .openSocket address ∧ k = d.nextSocket := by
  have hadmits := he.1
  have hold : (d.tasks n).uses k → ∃ m, (d.tasks m).uses k := fun hn => ⟨n, hn⟩
  have hphase : ∀ m phase, ((d.setPhase m phase).tasks n).uses k →
      (∃ m, (d.tasks m).uses k) ∨ phase.socket = some k := by
    intro m phase hm
    rcases uses_setTask hm with hn | hloop | hphase
    · exact .inl ⟨n, hn⟩
    · exact .inl ⟨m, .inl hloop⟩
    · exact .inr hphase
  rw [next_tasks] at h
  cases e with
  | socket | closeSocket => exact .inl (hold h)
  | openSocket address =>
    rcases uses_setTask (d := (d.setTask d.nextTask _)) h with hfirst | hsecond
    · rcases uses_setTask hfirst with hn | hnew
      · exact .inl (hold hn)
      · refine .inr (.inr ⟨address, rfl, ?_⟩)
        simpa [Task.uses, Loop.socket, Phase.socket, eq_comm] using hnew
    · refine .inr (.inr ⟨address, rfl, ?_⟩)
      simpa [Task.uses, Loop.socket, Phase.socket, eq_comm] using hsecond
  | sendFrame | getConnection =>
    refine .inl (hold ((uses_setTask h).resolve_right ?_))
    simp [Task.uses, Loop.socket, Phase.socket]
  | requestPeerInfo id =>
    simp only [effect] at h
    split at h
    · refine .inl (hold ((uses_setTask h).resolve_right ?_))
      simp [Task.uses, Loop.socket, Phase.socket]
    · exact .inl (hold h)
  | connectToRelays j =>
    rcases uses_setTask h with hn | hnew
    · exact .inl (hold hn)
    · obtain rfl : j = k := by simpa [Task.uses, Loop.socket, Phase.socket] using hnew
      exact .inr (.inl hadmits)
  | process m delivery =>
    simp only [effect, processDelivery] at h
    split at h
    · exact .inl ((hphase m _ h).resolve_right (by simp [Phase.socket]))
    · exact .inl ((hphase m _ h).resolve_right (by simp [Phase.socket]))
    · exact .inl (hold h)
  | found m j q host message =>
    rcases hphase m _ h with hn | hnew
    · exact .inl hn
    · obtain rfl := Option.some.inj hnew
      exact .inr (.inl hadmits.2.1)
  | choose m j host address message =>
    rcases hphase m _ h with hn | hnew
    · exact .inl hn
    · obtain rfl := Option.some.inj hnew
      exact .inr (.inl hadmits.2.2)
  | relayKnown m j relay rest | relayUnknown m j relay rest | relayOpen m j relay rest =>
    rcases uses_setTask h with hn | hnew
    · exact .inl (hold hn)
    · obtain rfl : j = k := by simpa [Task.uses, Loop.socket, Phase.socket] using hnew
      refine .inl ⟨m, .inl ?_⟩
      rw [hadmits.1]
      rfl
  | opened m j q session message =>
    rcases hphase m _ h with hn | hnew
    · exact .inl hn
    · obtain rfl := Option.some.inj hnew
      refine .inl ⟨m, .inr ?_⟩
      rw [show (d.tasks m).phase = _ from hadmits]
      rfl
  | take m | upstream m | panicked m | missing m | unconnectable m | openFailed m | send m
  | sendFailed m | returned m =>
    exact .inl ((hphase m _ h).resolve_right (by simp [Phase.socket]))

theorem deliver_of_next (h : ((d.next pack e).tasks n).loop = .deliver k) :
    (d.tasks n).loop = .deliver k ∨
      ∃ address, e = .openSocket address ∧ k = d.nextSocket ∧ n = d.nextTask + 1 := by
  have hset : ∀ (d : Daemon tls) m task, ((d.setTask m task).tasks n).loop = .deliver k →
      (d.tasks n).loop = .deliver k ∨ n = m ∧ task.loop = .deliver k := by
    intro d m task hn
    by_cases hm : n = m
    · subst hm
      simp only [setTask, Function.update_self] at hn
      exact .inr ⟨rfl, hn⟩
    · simp only [setTask, Function.update_of_ne hm] at hn
      exact .inl hn
  have hphase : ∀ m phase, ((d.setPhase m phase).tasks n).loop = .deliver k →
      (d.tasks n).loop = .deliver k := by
    intro m phase hn
    rcases hset d m _ hn with hold | ⟨rfl, hloop⟩
    · exact hold
    · exact hloop
  rw [next_tasks] at h
  cases e with
  | socket | closeSocket => exact .inl h
  | openSocket address =>
    rcases hset (d.setTask d.nextTask _) _ _ h with hfirst | ⟨hn, hloop⟩
    · exact .inl ((hset d _ _ hfirst).resolve_right (by simp))
    · exact .inr ⟨address, rfl, (Loop.deliver.inj hloop).symm, hn⟩
  | sendFrame | getConnection | connectToRelays =>
    exact .inl ((hset d _ _ h).resolve_right (by simp))
  | requestPeerInfo id =>
    simp only [effect] at h
    split at h
    · exact .inl ((hset d _ _ h).resolve_right (by simp))
    · exact .inl h
  | process m delivery =>
    simp only [effect, processDelivery] at h
    split at h
    · exact .inl (hphase m _ h)
    · exact .inl (hphase m _ h)
    · exact .inl h
  | relayKnown m | relayUnknown m | relayOpen m =>
    exact .inl ((hset d _ _ h).resolve_right (by simp))
  | _ m => exact .inl (hphase m _ h)

theorem WellFormed.openSockets_lt (h : d.WellFormed) (hk : k ∈ d.openSockets) :
    k < d.nextSocket := by
  obtain ⟨address, ha⟩ := mem_openSockets.mp hk
  exact h.lt address k ha

theorem Staffed.onSocket_lt (h : d.Staffed) (he : d.enabled pack e) {se : SocketEvent tls}
    (hx : e.onSocket = some (k, se)) : k < d.nextSocket := by
  have hadmits := he.1
  cases e with
  | socket j se' =>
    obtain ⟨rfl, -⟩ := Prod.mk.inj (Option.some.inj hx)
    exact hadmits.1
  | closeSocket address j =>
    obtain ⟨rfl, -⟩ := Prod.mk.inj (Option.some.inj hx)
    exact h.wellFormed.lt address j hadmits
  | take n j delivery =>
    obtain ⟨rfl, -⟩ := Prod.mk.inj (Option.some.inj hx)
    exact h.uses n j (.inl (by rw [show d.tasks n = _ from hadmits]; rfl))
  | panicked n j delivery =>
    obtain ⟨rfl, -⟩ := Prod.mk.inj (Option.some.inj hx)
    exact h.uses n j (.inl (by rw [hadmits.1]; rfl))
  | choose n j host address message =>
    obtain ⟨rfl, -⟩ := Prod.mk.inj (Option.some.inj hx)
    exact h.wellFormed.openSockets_lt hadmits.2.2
  | relayOpen n j relay rest address =>
    obtain ⟨rfl, -⟩ := Prod.mk.inj (Option.some.inj hx)
    exact h.uses n j (.inl (by rw [hadmits.1]; rfl))
  | opened n j q session message | openFailed n j q message | send n j q frame =>
    obtain ⟨rfl, -⟩ := Prod.mk.inj (Option.some.inj hx)
    exact h.uses n j (.inr (by rw [show (d.tasks n).phase = _ from hadmits]; rfl))
  | _ => cases hx

theorem Staffed.next (h : d.Staffed) (he : d.enabled pack e) : (d.next pack e).Staffed where
  wellFormed := h.wellFormed.next he
  unopened k hk := by
    have hold := Nat.le_trans (d.nextSocket_le e) hk
    rcases next_table he k with hs | ⟨se, hx, -, -⟩ | ⟨-, -, -, hs⟩
    · rw [hs, h.unopened k hold]
    · exact absurd (h.onSocket_lt he hx) (Nat.not_lt.mpr hold)
    · exact hs
  fresh := h.fresh.next he
  uses n k hk := by
    have hle : d.nextSocket ≤ (d.next pack e).nextSocket := d.nextSocket_le e
    rcases uses_of_next he hk with ⟨m, hm⟩ | hopen | ⟨address, rfl, rfl⟩
    · exact Nat.lt_of_lt_of_le (h.uses m k hm) hle
    · exact Nat.lt_of_lt_of_le (h.wellFormed.openSockets_lt hopen) hle
    · rw [next_nextSocket]
      exact Nat.lt_succ_self _
  unique n m k hn hm := by
    have hnew : ∀ n, (d.tasks n).loop ≠ .deliver d.nextSocket := fun n hn =>
      Nat.lt_irrefl _ (h.uses n _ (.inl (by rw [hn]; rfl)))
    rcases deliver_of_next hn with holdn | ⟨address, rfl, rfl, rfl⟩
    · rcases deliver_of_next hm with holdm | ⟨address, rfl, rfl, rfl⟩
      · exact h.unique n m k holdn holdm
      · exact absurd holdn (hnew n)
    · rcases deliver_of_next hm with holdm | ⟨-, -, -, rfl⟩
      · exact absurd holdm (hnew m)
      · rfl

theorem Staffed.of_reachable (h : Reachable (daemonMachine tls pack) d) : d.Staffed := by
  apply h.guarded_induct
  · rintro d ⟨network, rfl⟩
    exact .new network
  · exact fun d e hd he => hd.next he

theorem enabled_at (he : d.enabled pack e) {se : SocketEvent tls}
    (hx : e.onSocket = some (k, se)) : (d.table k).enabled se := by
  have hen := he.2
  rwa [hx] at hen

theorem table_at {se : SocketEvent tls} (hx : e.onSocket = some (k, se)) :
    (d.next pack e).table k = (d.table k).next se := by
  simp only [Daemon.next, hx, Option.elim_some, onTable, Function.update_self]

/-- A run of the daemon at its transport socket `k`. -/
def socketRun (r : Run (daemonMachine tls pack)) (k : ℕ) : Run (socketMachine tls) where
  start := r.start.table k
  transitions := r.transitions.filterMap (Transition.onPart (fun d => d.table k) (DaemonEvent.at k))
  final := r.final.table k
  starts := by
    obtain ⟨network, hnew⟩ := r.starts
    rw [hnew]
    rfl
  path := by
    refine r.path.onPart (fun d => d.table k) (DaemonEvent.at k) (fun x hx se hse => ?_)
      fun x hx hnone => ?_
    · obtain ⟨he, hnext⟩ := guarded_step.mp (r.path.step_of_mem hx)
      have hsocket := DaemonEvent.at_eq_some.mp hse
      rw [← hnext]
      exact guarded_step.mpr ⟨enabled_at he hsocket, (table_at hsocket).symm⟩
    · have hstaffed := Staffed.of_reachable (r.reachable_of_mem hx).1
      obtain ⟨he, hnext⟩ := guarded_step.mp (r.path.step_of_mem hx)
      rw [← hnext]
      rcases next_table he k with hs | ⟨se, hse, -, -⟩ | ⟨address, -, rfl, hs⟩
      · exact hs
      · cases hnone.symm.trans (DaemonEvent.at_eq_some.mpr hse)
      · rw [hs, hstaffed.unopened _ (Nat.le_refl _)]

theorem hand_setTask {m : ℕ} {task : Task} (hn : (d.tasks n).phase.hand = [])
    (htask : task.phase.hand = []) : ((d.setTask m task).tasks n).phase.hand = [] := by
  by_cases hm : n = m
  · subst hm
    simpa [setTask] using htask
  · simpa [setTask, hm] using hn

theorem hand_next_of_ne (hf : d.Fresh) (h : e.onTask ≠ some n) :
    ((d.next pack e).tasks n).phase.hand = (d.tasks n).phase.hand := by
  by_cases hn : n < d.nextTask
  · rw [tasks_next d e h (.inl hn)]
  · have hidle : (d.tasks n).phase.hand = [] := by
      rw [hf n (Nat.le_of_not_lt hn)]
      rfl
    rw [hidle, next_tasks]
    cases e with
    | socket | closeSocket => exact hidle
    | openSocket address => exact hand_setTask (hand_setTask hidle rfl) rfl
    | sendFrame | getConnection | connectToRelays => exact hand_setTask hidle rfl
    | requestPeerInfo id =>
      simp only [effect]
      split
      · exact hand_setTask hidle rfl
      · exact hidle
    | process m delivery =>
      simp only [effect, processDelivery]
      split
      · exact hand_setTask hidle rfl
      · exact hand_setTask hidle rfl
      · exact hidle
    | take m =>
      have hm : n ≠ m := fun heq => h (heq ▸ rfl)
      simpa [effect, setPhase, setTask, hm] using hidle
    | _ => exact hand_setTask hidle rfl

/-- A task takes one tuple at a time and handles it. -/
theorem hand_next (hf : d.Fresh) (he : d.enabled pack e) (n : ℕ) :
    (e.handles n).toList ++ ((d.next pack e).tasks n).phase.hand =
      (d.tasks n).phase.hand ++ (e.takes n).toList := by
  by_cases h : e.onTask = some n
  · have hset : ∀ m task, ((d.setTask m task).tasks m) = task := by
      intro m task
      simp [setTask]
    -- Apart from four steps, no step begins or ends with a tuple in the hands of its task.
    have hquiet : e.handles n = none → e.takes n = none → (d.tasks n).phase.hand = [] →
        ((d.effect pack e).tasks n).phase.hand = [] →
        (e.handles n).toList ++ ((d.next pack e).tasks n).phase.hand =
          (d.tasks n).phase.hand ++ (e.takes n).toList := by
      intro hhandles htakes hsource htarget
      simp [hhandles, htakes, hsource, next_tasks, htarget]
    have hadmits := he.1
    cases e with
    | take m k delivery =>
      obtain rfl := Option.some.inj h
      have htask : d.tasks m = ⟨.deliver k, .idle⟩ := hadmits
      simp [next_tasks, effect, setPhase, hset, DaemonEvent.handles, DaemonEvent.forwards,
        DaemonEvent.processes, DaemonEvent.takes, htask, Phase.hand]
    | upstream m delivery | panicked m k delivery =>
      obtain rfl := Option.some.inj h
      have hphase : (d.tasks m).phase = .delivering delivery := by rw [hadmits.1]
      simp [next_tasks, effect, setPhase, hset, DaemonEvent.handles, DaemonEvent.forwards,
        DaemonEvent.processes, DaemonEvent.takes, hphase, Phase.hand]
    | process m delivery =>
      obtain rfl := Option.some.inj h
      obtain ⟨hphase, -, hsome⟩ := hadmits
      obtain ⟨⟨network, reply⟩, hresult⟩ := Option.isSome_iff_exists.mp hsome
      simp only [next_tasks, effect, processDelivery, hresult]
      cases reply <;> simp [setPhase, hset, DaemonEvent.handles, DaemonEvent.forwards,
        DaemonEvent.processes, DaemonEvent.takes, hphase, Phase.hand]
    | found m k q host message | missing m host message | unconnectable m host message
    | choose m k host address message | sendFailed m k q frame =>
      obtain rfl := Option.some.inj h
      refine hquiet rfl rfl (by rw [hadmits.1]; rfl) ?_
      simp [effect, setPhase, hset, Phase.hand]
    | relayKnown m k relay rest | relayUnknown m k relay rest | relayOpen m k relay rest =>
      obtain rfl := Option.some.inj h
      refine hquiet rfl rfl (by rw [hadmits.1]; rfl) ?_
      simp [effect, hset, Phase.hand]
    | opened m k q session message | openFailed m k q message | send m k q frame
    | returned m k q =>
      obtain rfl := Option.some.inj h
      refine hquiet rfl rfl (by rw [show (d.tasks m).phase = _ from hadmits]; rfl) ?_
      simp [effect, setPhase, hset, Phase.hand]
    | _ => cases h
  · rw [DaemonEvent.handles_eq_none h, DaemonEvent.takes_eq_none h, hand_next_of_ne hf h]
    simp

theorem deliver_next (hf : d.Fresh) (he : d.enabled pack e)
    (h : (d.tasks n).loop = .deliver k) : ((d.next pack e).tasks n).loop = .deliver k := by
  have hn : n < d.nextTask := by
    by_contra hle
    rw [hf n (Nat.le_of_not_lt hle)] at h
    cases h
  by_cases hown : e.onTask = some n
  · have hset : ∀ phase, ((d.setPhase n phase).tasks n).loop = .deliver k := by
      intro phase
      simpa [setPhase, setTask] using h
    have hadmits := he.1
    rw [next_tasks]
    cases e with
    | relayKnown m j | relayUnknown m j | relayOpen m j =>
      obtain rfl := Option.some.inj hown
      rw [hadmits.1] at h
      cases h
    | process m delivery =>
      obtain rfl := Option.some.inj hown
      simp only [effect, processDelivery]
      split
      · exact hset _
      · exact hset _
      · exact h
    | take m | upstream m | panicked m | found m | missing m | unconnectable m | choose m
    | opened m | openFailed m | send m | sendFailed m | returned m =>
      obtain rfl := Option.some.inj hown
      exact hset _
    | _ => cases hown
  · rw [tasks_next d e hown (.inl hn), h]

theorem deliver_of_final (r : Run (daemonMachine tls pack)) {m : ℕ}
    (x : Transition (Daemon tls) (DaemonEvent tls)) (hx : x ∈ r.transitions)
    (h : (x.source.tasks m).loop = .deliver k) : (r.final.tasks m).loop = .deliver k := by
  have hkeeps := r.path.relates
    (R := fun s t => (s.tasks m).loop = .deliver k → (t.tasks m).loop = .deliver k)
  refine (hkeeps (fun s hs => hs) (fun s t u hst htu hs => htu (hst hs)) (fun y hy hs => ?_)
    x hx).1 h
  obtain ⟨he, hnext⟩ := guarded_step.mp (r.path.step_of_mem hy)
  have hstaffed := Staffed.of_reachable (r.reachable_of_mem hy).1
  exact hnext ▸ deliver_next hstaffed.fresh he hs

theorem take_event (he : d.enabled pack e) {delivery : Delivery}
    (hx : e.onSocket = some (k, .take delivery)) : ∃ m, e = .take m k delivery := by
  cases e with
  | socket j se =>
    obtain ⟨-, rfl⟩ := Prod.mk.inj (Option.some.inj hx)
    cases he.1.2
  | take m j delivery' =>
    obtain ⟨rfl, htake⟩ := Prod.mk.inj (Option.some.inj hx)
    obtain rfl := SocketEvent.take.inj htake
    exact ⟨m, rfl⟩
  | closeSocket | panicked | choose | relayOpen | opened | openFailed | send =>
    obtain ⟨-, htake⟩ := Prod.mk.inj (Option.some.inj hx)
    cases htake
  | _ => cases hx

theorem takes_of_mem (r : Run (daemonMachine tls pack))
    (hn : (r.final.tasks n).loop = .deliver k) {x : Transition (Daemon tls) (DaemonEvent tls)}
    (hx : x ∈ r.transitions) : (x.label.at k).bind SocketEvent.takes = x.label.takes n := by
  obtain ⟨he, -⟩ := guarded_step.mp (r.path.step_of_mem hx)
  have hstaffed := Staffed.of_reachable r.reachable
  -- The task that takes a tuple of a socket has its loop to the end of the run.
  have htask : ∀ m j delivery, x.label = .take m j delivery →
      (r.final.tasks m).loop = .deliver j := by
    intro m j delivery hlabel
    rw [hlabel] at he
    refine deliver_of_final r x hx ?_
    rw [show x.source.tasks m = _ from he.1]
  apply Option.ext
  intro delivery
  constructor
  · intro htakes
    obtain ⟨se, hse, htake⟩ := Option.bind_eq_some_iff.mp htakes
    obtain rfl : se = .take delivery := by
      cases se with
      | take delivery' => exact congrArg _ (Option.some.inj htake)
      | _ => cases htake
    obtain ⟨m, hlabel⟩ := take_event he (DaemonEvent.at_eq_some.mp hse)
    obtain rfl := hstaffed.unique m n k (htask m k delivery hlabel) hn
    simp [hlabel, DaemonEvent.takes]
  · intro htakes
    cases hlabel : x.label with
    | take m j delivery' =>
      rw [hlabel] at htakes
      obtain ⟨rfl, rfl⟩ : m = n ∧ delivery' = delivery := by
        simpa [DaemonEvent.takes] using htakes
      obtain rfl := Loop.deliver.inj ((htask m j delivery' hlabel).symm.trans hn)
      have htake : (DaemonEvent.take m j delivery' : DaemonEvent tls).at j =
          some (.take delivery') := DaemonEvent.at_eq_some.mpr rfl
      rw [htake]
      rfl
    | _ =>
      rw [hlabel] at htakes
      cases htakes

theorem handles_kind (he : d.enabled pack e) (n : ℕ) :
    e.forwards n = (e.handles n).filter (fun delivery => ¬ delivery.isControl) ∧
      e.processes n = (e.handles n).filter (fun delivery => delivery.isControl) := by
  have hadmits := he.1
  cases e with
  | upstream m delivery =>
    have hcontrol : ¬ delivery.isControl := hadmits.2
    by_cases hm : m = n <;>
      simp [DaemonEvent.handles, DaemonEvent.forwards, DaemonEvent.processes, hm, hcontrol,
        Option.filter]
  | process m delivery | panicked m k delivery =>
    have hcontrol : delivery.isControl := hadmits.2.1
    by_cases hm : m = n <;>
      simp [DaemonEvent.handles, DaemonEvent.forwards, DaemonEvent.processes, hm, hcontrol,
        Option.filter]
  | _ => exact ⟨rfl, rfl⟩

theorem filterMap_socketRun {α : Type*} (r : Run (daemonMachine tls pack)) (k : ℕ)
    (f : Socket tls → SocketEvent tls → Option α) :
    ((socketRun r k).transitions.filterMap fun x => f x.source x.label) =
      r.transitions.filterMap fun x => (x.label.at k).bind (f (x.source.table k)) := by
  simp only [socketRun, List.filterMap_filterMap, Transition.onPart, Option.bind_map]
  rfl

theorem flatMap_socketRun {α : Type*} (r : Run (daemonMachine tls pack)) (k : ℕ)
    (f : SocketEvent tls → List α) :
    ((socketRun r k).transitions.flatMap fun x => f x.label) =
      r.transitions.flatMap fun x => (x.label.at k).elim [] f := by
  simp only [socketRun, List.filterMap_eq_flatMap_toList, List.flatMap_assoc]
  congr 1
  funext x
  cases hx : x.label.at k <;> simp [Transition.onPart, hx]

end Daemon

/-- The deliver task of a transport socket handles what the read tasks of its connections deliver,
in this order and each tuple once: control messages are processed, all others go upstream. And
each connection delivers the data of its session in its order. -/
theorem delivered_in_order (r : Run (daemonMachine tls pack)) {n k : ℕ}
    (hn : (r.final.tasks n).loop = .deliver k) :
    let delivers := r.transitions.filterMap fun x =>
      (x.label.at k).bind (x.source.table k).delivers
    let handled := r.transitions.filterMap fun x => x.label.handles n
    let hand := (r.final.tasks n).phase.hand
    let socket := r.final.table k
    handled ++ hand <+: delivers.map Prod.snd ∧
      (socket.receiver = true →
        handled ++ hand ++ socket.deliverFrame.items = delivers.map Prod.snd) ∧
      (r.transitions.filterMap fun x => x.label.forwards n) =
        handled.filter (fun delivery => ¬ delivery.isControl) ∧
      (r.transitions.filterMap fun x => x.label.processes n) =
        handled.filter (fun delivery => delivery.isControl) ∧
      ∀ q c, socket.endpoints q = .connection c →
        (delivers.filter fun x => x.1 = q).map Prod.snd <+:
          (r.transitions.flatMap fun x => (x.label.at k).elim [] (SocketEvent.gets q)).filterMap
            (Frame.delivery c.remoteId) := by
  have htaken := taken_of_run (Daemon.socketRun r k)
  have hown := fun q c => delivered_of_run (q := q) (c := c) (Daemon.socketRun r k)
  rw [Daemon.filterMap_socketRun r k fun _ e => e.takes,
    Daemon.filterMap_socketRun r k fun s e => s.delivers e] at htaken
  have hhandled : (r.transitions.filterMap fun x => x.label.handles n) ++
      (r.final.tasks n).phase.hand =
        r.transitions.filterMap fun x => (x.label.at k).bind SocketEvent.takes := by
    obtain ⟨network, hstart⟩ := r.starts
    have hflow := r.path.flow (fun d => (d.tasks n).phase.hand)
      (fun x => (x.label.handles n).toList) (fun x => (x.label.takes n).toList) fun x hx => by
        obtain ⟨he, hnext⟩ := guarded_step.mp (r.path.step_of_mem hx)
        have hstaffed := Daemon.Staffed.of_reachable (r.reachable_of_mem hx).1
        exact hnext ▸ Daemon.hand_next hstaffed.fresh he n
    rw [← List.filterMap_eq_flatMap_toList, ← List.filterMap_eq_flatMap_toList, hstart] at hflow
    rw [hflow]
    exact List.filterMap_congr fun x hx => (Daemon.takes_of_mem r hn hx).symm
  refine ⟨hhandled ▸ htaken.1, fun hopen => hhandled ▸ htaken.2 hopen, ?_, ?_, fun q c hc => ?_⟩
  · rw [List.filter_filterMap]
    exact List.filterMap_congr fun x hx =>
      (Daemon.handles_kind (guarded_step.mp (r.path.step_of_mem hx)).1 n).1
  · rw [List.filter_filterMap]
    exact List.filterMap_congr fun x hx =>
      (Daemon.handles_kind (guarded_step.mp (r.path.step_of_mem hx)).1 n).2
  · have hleads := (hown q c hc).1
    rw [Daemon.filterMap_socketRun r k fun s e => s.delivers e,
      Daemon.flatMap_socketRun r k fun e => e.gets q] at hleads
    exact hleads

/-- A frame of a host goes upstream. -/
theorem delivered_in_order_frame : ∃ r : Run (daemonMachine keyTls waitingPack),
    (r.transitions.filterMap fun x => x.label.handles 1).filter
      (fun delivery => ¬ delivery.isControl) = [⟨digestTwo, 7, 8, [9]⟩] := by
  obtain ⟨r, -, hlabels, hfinal⟩ := exec_final (M := daemonMachine keyTls waitingPack)
    ⟨waitingNetwork, rfl⟩ (connectingEvents ++ forwarded 2 floodAddr [23] 1 false ++
      [.socket 0 (.receive 1 ⟨2, floodAddr, [23]⟩ [.data 7 8 [9]]),
        .socket 0 (.connection 1 (.frame (.data 7 8 [9]))), .socket 0 (.deliver 1),
        .take 1 0 ⟨digestTwo, 7, 8, [9]⟩, .upstream 1 ⟨digestTwo, 7, 8, [9]⟩])
    (p := fun d => decide ((d.tasks 1).loop = .deliver 0)) (by decide +kernel)
  have hforwards : (r.transitions.filterMap fun x => x.label.forwards 1) =
      (r.transitions.map Transition.label).filterMap (DaemonEvent.forwards 1) := by
    rw [List.filterMap_map]
    rfl
  refine ⟨r, ?_⟩
  rw [← (delivered_in_order r (of_decide_eq_true hfinal)).2.2.1, hforwards, hlabels]
  rfl

end Uip
