import Uip.DaemonSending
import Uip.DaemonWait
import Uip.TransportRest

/-! What the tasks of a daemon can wait for: the network, timers, calls and room upstream, and for
each other only where one of them waits for a handshake. -/
namespace Uip
open TransitionSystem Transport

variable {tls : Tls} {pack : MessagePack}

/-- The steps that a daemon makes without the network, timers, handshakes and calls, as long as
there is room in the channel upstream. -/
def DaemonEvent.prompt : DaemonEvent tls → Bool
  | .socket _ e => e.prompt
  | .take .. | .upstream .. | .process .. | .panicked .. | .found .. | .missing ..
  | .unconnectable .. | .choose .. | .relayKnown .. | .relayUnknown .. | .relayOpen .. | .send ..
  | .sendFailed .. | .returned .. => true
  | _ => false

/-- The steps that the tasks can make by themselves, where the channel upstream has `room` or is
full. -/
def DaemonEvent.goesOn (room : Bool) : DaemonEvent tls → Bool
  | .upstream .. => room
  | e => e.prompt

theorem prompt_of_goesOn {room : Bool} {e : DaemonEvent tls} (goes : e.goesOn room = true) :
    e.prompt = true := by
  cases e with
  | upstream => rfl
  | _ => exact goes

theorem internal_of_prompt {e : SocketEvent tls} (prompt : e.prompt = true) :
    e.internal = true := by
  cases e <;> first | rfl | cases prompt

namespace Daemon

variable {d : Daemon tls} {e : DaemonEvent tls} {k n : ℕ} {room : Bool}

section Manned

/-- Each socket has a deliver task, and this has the receiver of the data channel until it ends. -/
structure Manned (d : Daemon tls) : Prop where
  manned : ∀ k, k < d.nextSocket → ∃ n, (d.tasks n).loop = .deliver k
  receiver : ∀ n k, (d.tasks n).loop = .deliver k →
    ((d.table k).receiver = true ↔ (d.tasks n).phase ≠ .ended)

theorem Manned.new (network : NetworkState) : (new tls network).Manned where
  manned k hk := by cases hk
  receiver n k h := by cases h

theorem Manned.next_manned (h : d.Manned) (hs : d.Staffed) (he : d.enabled pack e)
    (hk : k < (d.next pack e).nextSocket) :
    ∃ n, ((d.next pack e).tasks n).loop = .deliver k := by
  by_cases hold : k < d.nextSocket
  · obtain ⟨n, hn⟩ := h.manned k hold
    exact ⟨n, deliver_next hs.fresh he hn⟩
  · rw [next_nextSocket] at hk
    cases e with
    | openSocket address =>
      obtain rfl : k = d.nextSocket :=
        Nat.le_antisymm (Nat.lt_succ_iff.mp hk) (Nat.le_of_not_lt hold)
      exact ⟨d.nextTask + 1, by simp [next_tasks, effect, openSocket, spawn, setTask]⟩
    | _ => exact absurd hk hold

/-- The receiver of a data channel is dropped by a panic only. -/
theorem receiver_next (he : d.enabled pack e) (hk : k < d.nextSocket) :
    ((d.next pack e).table k).receiver = (d.table k).receiver ∨
      ∃ n delivery, e = .panicked n k delivery ∧ ((d.next pack e).table k).receiver = false := by
  rcases next_table he k with hsame | ⟨se, hx, -, hstep⟩ | ⟨-, -, rfl, -⟩
  · exact .inl (by rw [hsame])
  · rw [hstep]
    by_cases hdrop : se = .dropReceiver
    · subst hdrop
      cases e with
      | panicked n j delivery =>
        obtain ⟨rfl, -⟩ := Prod.mk.inj (Option.some.inj hx)
        exact .inr ⟨n, delivery, rfl, rfl⟩
      | socket j se =>
        obtain ⟨rfl, rfl⟩ := Prod.mk.inj (Option.some.inj hx)
        cases he.1.2
      | closeSocket | take | choose | relayOpen | opened | openFailed | send =>
        obtain ⟨-, hse⟩ := Prod.mk.inj (Option.some.inj hx)
        cases hse
      | _ => cases hx
    · exact .inl (Socket.receiver_next _ hdrop)
  · exact absurd hk (Nat.lt_irrefl _)

theorem active (he : d.enabled pack e) (h : e.onTask = some n) :
    (d.tasks n).phase ≠ .ended := by
  have hadmits := he.1
  intro hended
  cases e with
  | take m k delivery =>
    obtain rfl := Option.some.inj h
    rw [show d.tasks m = _ from hadmits] at hended
    cases hended
  | opened m | openFailed m | send m | returned m =>
    obtain rfl := Option.some.inj h
    exact absurd (hended.symm.trans hadmits) (by simp)
  | panicked m | relayKnown m | relayUnknown m | relayOpen m =>
    obtain rfl := Option.some.inj h
    rw [hadmits.1] at hended
    cases hended
  | upstream m | process m | found m | missing m | unconnectable m | choose m | sendFailed m =>
    obtain rfl := Option.some.inj h
    cases hadmits.1.symm.trans hended
  | _ => cases h

theorem ended_next (hf : d.Fresh) (he : d.enabled pack e) :
    ((d.next pack e).tasks n).phase = .ended ↔
      (d.tasks n).phase = .ended ∨ ∃ k delivery, e = .panicked n k delivery := by
  by_cases hown : e.onTask = some n
  · rw [phase_next d hown, or_iff_right (active he hown)]
    cases e with
    | process m delivery =>
      obtain ⟨⟨network, reply⟩, hresult⟩ := Option.isSome_iff_exists.mp he.1.2.2
      simp only [nextPhase, hresult]
      cases reply <;> simp
    | panicked m k delivery =>
      obtain rfl := Option.some.inj hown
      exact ⟨fun _ => ⟨k, delivery, rfl⟩, fun _ => rfl⟩
    | _ => simp [nextPhase]
  · have hnot : ∀ k delivery, e ≠ .panicked n k delivery := by
      rintro k delivery rfl
      exact hown rfl
    by_cases hn : n < d.nextTask
    · rw [tasks_next d e hown (.inl hn)]
      simp [hnot]
    · have hidle := hf n (Nat.le_of_not_lt hn)
      rcases begun hf he (Nat.le_of_not_lt hn) with ⟨hphase, -⟩ | ⟨call, -, htask⟩
      · simp [hphase, hidle, hnot]
      · simp [htask, hidle, hnot]

theorem Manned.next_receiver (h : d.Manned) (hs : d.Staffed) (he : d.enabled pack e)
    (hn : ((d.next pack e).tasks n).loop = .deliver k) :
    ((d.next pack e).table k).receiver = true ↔ ((d.next pack e).tasks n).phase ≠ .ended := by
  rcases deliver_of_next hn with hold | ⟨address, rfl, rfl, rfl⟩
  · have hk := hs.uses n k (.inl (by rw [hold]; rfl))
    rw [Ne, ended_next hs.fresh he]
    by_cases hpanic : ∃ j delivery, e = .panicked n j delivery
    · obtain ⟨j, delivery, rfl⟩ := hpanic
      obtain rfl : j = k := by
        rw [he.1.1] at hold
        exact Loop.deliver.inj hold
      have hdropped : ((d.next pack (.panicked n j delivery)).table j).receiver = false := by
        rw [table_at rfl]
        rfl
      simp [hdropped]
    · rw [or_iff_left hpanic, ← Ne, ← h.receiver n k hold]
      rcases receiver_next he hk with hsame | ⟨m, delivery, rfl, -⟩
      · rw [hsame]
      · obtain rfl : m = n := hs.unique m n k (by rw [he.1.1]) hold
        exact absurd ⟨k, delivery, rfl⟩ hpanic
  · have hnew : (d.next pack (.openSocket address)).table d.nextSocket = .new tls :=
      Function.update_self ..
    rw [hnew]
    simp [next_tasks, effect, openSocket, spawn, setTask, Socket.new]

theorem Manned.next (h : d.Manned) (hs : d.Staffed) (he : d.enabled pack e) :
    (d.next pack e).Manned where
  manned _ hk := h.next_manned hs he hk
  receiver _ _ hn := h.next_receiver hs he hn

theorem Manned.of_reachable (h : Reachable (daemonMachine tls pack) d) : d.Manned := by
  have hinv : d.Staffed ∧ d.Manned := by
    apply h.guarded_induct (P := fun d => d.Staffed ∧ d.Manned)
    · rintro d ⟨network, rfl⟩
      exact ⟨.new network, .new network⟩
    · exact fun d e hd he => ⟨hd.1.next he, hd.2.next hd.1 he⟩
  exact hinv.2

end Manned

section Rest

def AtRest (pack : MessagePack) (room : Bool) (d : Daemon tls) : Prop :=
  ∀ e : DaemonEvent tls, e.goesOn room = true → ¬ d.enabled pack e

/-- The task has returned or panicked, or it awaits a delivery, the end of a handshake or room in
the channel upstream. -/
def Waits (room : Bool) (task : Task) : Prop :=
  task.returned ∨ task.phase = .ended ∨ (∃ k, task = ⟨.deliver k, .idle⟩) ∨
    (∃ k q message, task.phase = .handshake k q message) ∨
      room = false ∧ ∃ k delivery, task = ⟨.deliver k, .delivering delivery⟩ ∧ ¬ delivery.isControl

/-- The deliver task of the socket has a tuple for the channel upstream. -/
def PassesUpstream (d : Daemon tls) (k : ℕ) : Prop :=
  ∃ n delivery, d.tasks n = ⟨.deliver k, .delivering delivery⟩ ∧ ¬ delivery.isControl

namespace AtRest

variable (rest : d.AtRest pack room)

include rest

theorem table (hk : k < d.nextSocket) : (d.table k).AtRest :=
  fun se prompt he => rest (.socket k se) prompt ⟨⟨hk, internal_of_prompt prompt⟩, he⟩

theorem delivering (hc : d.Calling) (hm : d.Manned) {delivery : Delivery}
    (hphase : (d.tasks n).phase = .delivering delivery) :
    room = false ∧ ∃ k, d.tasks n = ⟨.deliver k, .delivering delivery⟩ ∧ ¬ delivery.isControl := by
  obtain ⟨k, hloop⟩ := hc.delivering n delivery hphase
  have htask : d.tasks n = ⟨.deliver k, .delivering delivery⟩ := by
    rw [← hloop, ← hphase]
  by_cases hcontrol : delivery.isControl
  · cases hresult : (d.network.processControlMessage pack delivery.hostId delivery.data) with
    | some result =>
      exact absurd ⟨⟨hphase, hcontrol, by rw [hresult]; rfl⟩, trivial⟩
        (rest (.process n delivery) rfl)
    | none =>
      have hreceiver : (d.table k).receiver = true :=
        (hm.receiver n k hloop).mpr (by rw [hphase]; simp)
      exact absurd ⟨⟨htask, hcontrol, by rw [hresult]; rfl⟩, hreceiver, trivial⟩
        (rest (.panicked n k delivery) rfl)
  · refine ⟨Bool.eq_false_iff.mpr fun hroom => ?_, k, htask, hcontrol⟩
    exact rest (.upstream n delivery) hroom ⟨⟨hphase, hcontrol⟩, trivial⟩

theorem not_lookup {host : Identifier} {message : Option Frame} :
    (d.tasks n).phase ≠ .lookup host message := by
  intro hphase
  by_cases hunknown : d.unknown host
  · exact rest (.missing n host message) rfl ⟨⟨hphase, hunknown⟩, trivial⟩
  · simp only [unknown, not_forall] at hunknown
    obtain ⟨k, hk, hsome⟩ := hunknown
    obtain ⟨q, hq⟩ := Option.ne_none_iff_exists'.mp hsome
    exact rest (.found n k q host message) rfl ⟨⟨hphase, hk, hq⟩, trivial⟩

theorem not_connecting {host : Identifier} {message : Option Frame} :
    (d.tasks n).phase ≠ .connecting host message := by
  intro hphase
  cases haddress : d.network.pib.lookupPeerAddress host with
  | none => exact rest (.unconnectable n host message) rfl ⟨⟨hphase, .inl haddress⟩, trivial⟩
  | some address =>
    cases hopen : d.openSockets with
    | nil => exact rest (.unconnectable n host message) rfl ⟨⟨hphase, .inr hopen⟩, trivial⟩
    | cons k others =>
      have hk : k ∈ d.openSockets := by simp [hopen]
      exact rest (.choose n k host address message) rfl
        ⟨⟨hphase, haddress, hk⟩, trivial, trivial, trivial⟩

theorem not_sending (hc : d.Calling) {k q : ℕ} {message : Option Frame} :
    (d.tasks n).phase ≠ .sending k q message := by
  intro hphase
  cases message with
  | none => exact rest (.returned n k q) rfl ⟨hphase, trivial⟩
  | some frame =>
    obtain ⟨c, hconnection⟩ := hc.sending n k q _ hphase
    have hk := hc.staffed.uses n k (.inr (by rw [hphase]; rfl))
    rcases ((rest.table hk).connection hconnection).accepts_or_ended with haccepts | hended
    · refine rest (.send n k q frame) rfl ⟨hphase, ?_, trivial⟩
      exact Endpoint.satisfies_iff.mpr ⟨c, hconnection, haccepts⟩
    · refine rest (.sendFailed n k q frame) rfl ⟨⟨hphase, ?_⟩, trivial⟩
      exact Endpoint.satisfies_iff.mpr ⟨c, hconnection, hended⟩

theorem not_relays {k : ℕ} {relay : Identifier} {others : List Identifier} :
    d.tasks n ≠ ⟨.relays k (relay :: others), .idle⟩ := by
  intro htask
  by_cases hknown : (d.table k).getConnection relay = none
  · cases haddress : d.network.pib.lookupPeerAddress relay with
    | none =>
      exact rest (.relayUnknown n k relay others) rfl ⟨⟨htask, hknown, haddress⟩, trivial⟩
    | some address =>
      exact rest (.relayOpen n k relay others address) rfl
        ⟨⟨htask, hknown, haddress⟩, trivial, trivial, trivial⟩
  · exact rest (.relayKnown n k relay others) rfl ⟨⟨htask, hknown⟩, trivial⟩

theorem waits (hc : d.Calling) (hm : d.Manned) (n : ℕ) : Waits room (d.tasks n) := by
  rcases htask : d.tasks n with ⟨loop, phase⟩
  have hphase : (d.tasks n).phase = phase := by rw [htask]
  cases phase with
  | idle =>
    cases loop with
    | once => exact .inl ⟨rfl, trivial⟩
    | deliver k => exact .inr (.inr (.inl ⟨k, rfl⟩))
    | relays k relays =>
      cases relays with
      | nil => exact .inl ⟨rfl, rfl⟩
      | cons relay others => exact absurd htask rest.not_relays
  | delivering delivery =>
    obtain ⟨hroom, k, hdeliver, hdata⟩ := rest.delivering hc hm hphase
    exact .inr (.inr (.inr (.inr ⟨hroom, k, delivery, htask.symm.trans hdeliver, hdata⟩)))
  | lookup host message => exact absurd hphase rest.not_lookup
  | connecting host message => exact absurd hphase rest.not_connecting
  | handshake k q message => exact .inr (.inr (.inr (.inl ⟨k, q, message, rfl⟩)))
  | sending k q message => exact absurd hphase (rest.not_sending hc)
  | ended => exact .inr (.inl rfl)

/-- Where a deliver task awaits neither a handshake nor room upstream, the data channel of its
socket is empty. -/
theorem channel (hc : d.Calling) (hm : d.Manned) (hk : k < d.nextSocket)
    (free : ∀ n j q message, d.tasks n ≠ ⟨.deliver k, .handshake j q message⟩)
    (passed : ¬ (room = false ∧ d.PassesUpstream k))
    (hreceiver : (d.table k).receiver = true) : (d.table k).deliverFrame.items = [] := by
  obtain ⟨n, hloop⟩ := hm.manned k hk
  have hrunning := (hm.receiver n k hloop).mp hreceiver
  rcases rest.waits hc hm n with ⟨-, hreturned⟩ | hended | ⟨j, htask⟩ | ⟨j, q, message, hphase⟩ |
    ⟨hroom, j, delivery, htask, hdata⟩
  · rw [hloop] at hreturned
    exact hreturned.elim
  · exact absurd hended hrunning
  · obtain rfl : j = k := by
      rw [htask] at hloop
      exact Loop.deliver.inj hloop
    cases hitems : (d.table j).deliverFrame.items with
    | nil => rfl
    | cons delivery items =>
      have hhead : (d.table j).deliverFrame.items.head? = some delivery := by rw [hitems]; rfl
      exact absurd ⟨htask, ⟨hreceiver, hhead⟩, trivial⟩ (rest (.take n j delivery) rfl)
  · exact absurd (by rw [← hloop, ← hphase]) (free n j q message)
  · obtain rfl : j = k := by
      rw [htask] at hloop
      exact Loop.deliver.inj hloop
    exact absurd ⟨hroom, n, delivery, htask, hdata⟩ passed

end AtRest

end Rest

end Daemon

section Unaddressed

def unaddressedEvents : List (DaemonEvent keyTls) :=
  [.openSocket localAddr, .sendFrame digestTwo 5 6 [],
    .missing 2 digestTwo (some (.data 5 6 [])), .unconnectable 2 digestTwo (some (.data 5 6 []))]

end Unaddressed

end Uip
