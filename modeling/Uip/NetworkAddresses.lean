import Uip.NetworkForwarding
import Uip.NetworkMain

/-! When the publication of addresses reaches every connection: the invariant of
`open_new_sockets`, and a run in which a relay keeps an old record. -/
namespace Uip
open TransitionSystem Transport

variable {tls : Tls} {pack : MessagePack}

namespace Daemon

variable {d : Daemon tls} {e : DaemonEvent tls} {k q n : ℕ}

theorem sockets_next (hmain : e.ofMain = false) : (d.next pack e).sockets = d.sockets := by
  rw [next_sockets]
  cases e with
  | openSocket | closeSocket => cases hmain
  | _ => rfl

theorem myPeerInformation_next (hmain : e.ofMain = false) :
    (d.next pack e).myPeerInformation = d.myPeerInformation := by
  have hnetwork : (d.next pack e).network.id = d.network.id ∧
      (d.next pack e).network.relays = d.network.relays := by
    rcases d.next_network e with hs | ⟨n, delivery, reply, -, hp⟩
    · rw [hs]
      exact ⟨rfl, rfl⟩
    · obtain ⟨hid, hrelays, -⟩ := NetworkState.processControlMessage_frame hp
      exact ⟨hid, hrelays⟩
  simp only [myPeerInformation, sockets_next hmain, hnetwork]

theorem isRelays_next (he : d.enabled pack e) (hn : n < d.nextTask) :
    ((d.next pack e).tasks n).loop.isRelays = (d.tasks n).loop.isRelays := by
  by_cases h : e.onTask = some n
  · have hset : ∀ phase, ((d.setPhase n phase).tasks n).loop.isRelays =
        (d.tasks n).loop.isRelays := fun phase => by simp [setPhase, setTask]
    have hadmits := he.1
    rw [next_tasks]
    cases e with
    | process m delivery =>
      obtain rfl := Option.some.inj h
      simp only [effect, processDelivery]
      split
      · exact hset _
      · exact hset _
      · rfl
    | relayKnown m k relay rest | relayUnknown m k relay rest
    | relayOpen m k relay rest address =>
      obtain rfl := Option.some.inj h
      rw [show d.tasks m = _ from hadmits.1]
      simp [effect, setTask, Loop.isRelays]
    | socket | openSocket | closeSocket | sendFrame | requestPeerInfo | getConnection
    | connectToRelays => cases h
    | _ m =>
      obtain rfl := Option.some.inj h
      exact hset _
  · rw [tasks_next d e h (.inl hn)]

theorem isRelays_spawned (hmain : e.ofMain = false) (hle : d.nextTask ≤ n)
    (hn : n < (d.next pack e).nextTask) : ((d.next pack e).tasks n).loop.isRelays = false := by
  have hspawn : ∀ task : Task, task.loop.isRelays = false → n < d.nextTask + 1 →
      ((d.spawn task).tasks n).loop.isRelays = false := by
    intro task htask hlt
    obtain rfl : n = d.nextTask := by omega
    simpa [spawn, setTask] using htask
  rw [next_tasks]
  rw [next_nextTask] at hn
  cases e with
  | openSocket | connectToRelays => cases hmain
  | sendFrame | getConnection => exact hspawn _ rfl hn
  | requestPeerInfo id =>
    simp only [effect] at hn ⊢
    split at hn
    · exact hspawn _ rfl hn
    · exact absurd hle (Nat.not_le_of_lt hn)
  | process m delivery =>
    have hsame : (d.effect pack (.process m delivery)).nextTask = d.nextTask := by
      simp only [effect, processDelivery]
      split <;> rfl
    rw [hsame] at hn
    exact absurd hle (Nat.not_le_of_lt hn)
  | _ => exact absurd hle (Nat.not_le_of_lt hn)

end Daemon

namespace NetworkMain

variable {s : NetworkMain tls} {e : DaemonEvent tls} {k q n : ℕ}

/-- The connections that the publication is still to send to. -/
def pending (s : NetworkMain tls) : List (ℕ × ℕ) :=
  match s.phase with
  | .publishing _ _ connections => connections
  | _ => []

section Publishing
variable {peer : Peer} {sockets : List ℕ} {connections : List (ℕ × ℕ)}

theorem unread_publishing (hphase : s.phase = .publishing peer sockets connections) :
    s.Unread k ↔ k ∈ sockets := by
  rw [Unread, hphase]

theorem pending_publishing (hphase : s.phase = .publishing peer sockets connections) :
    s.pending = connections := by
  rw [pending, hphase]

end Publishing

/-- Why a connection gets the current record before `open_new_sockets` finishes. -/
inductive Covered (pack : MessagePack) (s : NetworkMain tls) (k q : ℕ) : Prop
  | informed (h : s.Informed pack k q)
  | announced (h : s.Announces pack k q)
  | unread (h : s.Unread k)
  | pending (h : (k, q) ∈ s.pending)

theorem ownRecord_daemon (hmain : e.ofMain = false) :
    (s.next pack (.daemon e)).ownRecord pack = s.ownRecord pack :=
  congrArg (NetworkState.sendPeerInfo pack) (Daemon.myPeerInformation_next hmain)

theorem openSockets_daemon (hmain : e.ofMain = false) :
    (s.next pack (.daemon e)).daemon.openSockets = s.daemon.openSockets :=
  congrArg (fun sockets => sockets.entries.map Sigma.snd) (Daemon.sockets_next hmain)

theorem Finished.daemon (h : s.Finished) (he : s.enabled pack (.daemon e)) :
    (s.next pack (.daemon e)).Finished := by
  obtain ⟨hidle, htasks⟩ := h
  refine ⟨hidle, fun n hn hfirst hrelays => ?_⟩
  by_cases hold : n < s.daemon.nextTask
  · have hreturned := htasks n hold hfirst
      ((Daemon.isRelays_next he.2 hold).symm.trans hrelays)
    have hevent : e.onTask ≠ some n := fun htask => Daemon.not_returned he.2 htask hreturned
    rw [show (s.next pack (.daemon e)).daemon.tasks n = s.daemon.tasks n from
      Daemon.tasks_next _ e hevent (.inl hold)]
    exact hreturned
  · have hnone := Daemon.isRelays_spawned he.1 (Nat.le_of_not_lt hold) hn
    exact absurd (hrelays.symm.trans hnone) (by simp)

theorem Live.writeTask (h : s.Live k q) :
    ¬ ((s.daemon.table k).endpoints q).satisfies fun c => c.writeTask = .ended := by
  intro hended
  obtain ⟨c, hc, hwrite⟩ := Endpoint.satisfies_iff.mp hended
  obtain ⟨c', hc', halive⟩ := Endpoint.satisfies_iff.mp h.2
  obtain rfl := Endpoint.connection.inj (hc.symm.trans hc')
  exact halive.2 hwrite

theorem not_live_of_sendFailed {frame : Frame}
    (he : s.enabled pack (.daemon (.sendFailed n k q frame))) :
    ¬ (s.next pack (.daemon (.sendFailed n k q frame))).Live k q := by
  rintro ⟨hopen, hlive⟩
  rcases Daemon.alive_of_next he.2 hopen hlive with hold | ⟨_, heq⟩ | ⟨_, _, _, heq⟩
  · exact Live.writeTask (s := s) hold he.2.1.2
  · cases heq
  · cases heq

theorem Announces.daemon (h : s.Announces pack k q) (hfresh : s.daemon.Fresh)
    (he : s.enabled pack (.daemon e)) (hlive : (s.next pack (.daemon e)).Live k q) :
    (s.next pack (.daemon e)).Announces pack k q ∨
      (s.next pack (.daemon e)).Informed pack k q := by
  obtain ⟨n, data, hrelays, hphase, hrecord⟩ := h
  have hrecord' : (s.next pack (.daemon e)).ownRecord pack = some data :=
    (ownRecord_daemon he.1).trans hrecord
  by_cases htask : e.onTask = some n
  · rcases Daemon.sending_event he.2 htask hphase with rfl | rfl
    · right
      refine ⟨data, hrecord', ?_⟩
      simp [next, queues, hrelays, record]
    · exact absurd hlive (not_live_of_sendFailed he)
  · left
    have hn := hfresh.lt (n := n) (by rw [hphase]; simp)
    have hsame : (s.next pack (.daemon e)).daemon.tasks n = s.daemon.tasks n :=
      Daemon.tasks_next _ e htask (.inl hn)
    exact ⟨n, data, by rw [hsame, hrelays], by rw [hsame, hphase], hrecord'⟩

/-- A relay task is about to queue the current record on the connection that it has opened. -/
theorem Announces.opened {session : Session tls} {message : Option Frame}
    (hrelays : (s.daemon.tasks n).loop.isRelays = true)
    (hrecord : (s.ownRecord pack).isSome = true) :
    (s.next pack (.daemon (.opened n k q session message))).Announces pack k q := by
  obtain ⟨data, hdata⟩ := Option.isSome_iff_exists.mp hrecord
  have hmessage : s.daemon.openedMessage pack n message = some (.data 0 0 data) := by
    cases hloop : (s.daemon.tasks n).loop with
    | once | deliver => simp [hloop, Loop.isRelays] at hrelays
    | relays j rest =>
      have hsend : NetworkState.sendPeerInfo pack s.daemon.myPeerInformation = some data := hdata
      simp [Daemon.openedMessage, hloop, controlFrame, hsend]
  have htask : (s.next pack (.daemon (.opened n k q session message))).daemon.tasks n =
      ⟨(s.daemon.tasks n).loop, .sending k q (some (.data 0 0 data))⟩ := by
    simp [next, MainEvent.onDaemon, Daemon.next, Daemon.effect, Daemon.setPhase, Daemon.setTask,
      hmessage]
  refine ⟨n, data, by rw [htask, hrelays], by rw [htask], ?_⟩
  exact (ownRecord_daemon rfl).trans hdata

theorem record_apply (queued : ℕ → ℕ → Option Bytes) (j p : ℕ) (data : Bytes) :
    record queued (j, p, data) k q = if k = j ∧ q = p then some data else queued k q := by
  by_cases hk : k = j
  · subst hk
    by_cases hq : q = p
    · simp [record, hq]
    · simp [record, hq]
  · simp [record, hk]

theorem queues_daemon {x : ℕ × ℕ × Bytes} (h : s.queues (.daemon e) = some x) :
    ∃ n srcPort dstPort, e = .send n x.1 x.2.1 (.data srcPort dstPort x.2.2) ∧
      (s.daemon.tasks n).loop.isRelays = true := by
  cases e with
  | send n j p frame =>
    cases frame with
    | data srcPort dstPort data =>
      simp only [queues] at h
      split_ifs at h with hrelays
      obtain rfl := Option.some.inj h
      exact ⟨n, srcPort, dstPort, rfl, hrelays⟩
    | _ => cases h
  | _ => cases h

/-- What the daemon queues on a connection of a settling socket is the current record. -/
theorem Informed.daemon (h : s.Informed pack k q) (he : s.enabled pack (.daemon e))
    (hreach : s.reaches pack (.daemon e)) (hsettling : s.Settling k) :
    (s.next pack (.daemon e)).Informed pack k q := by
  obtain ⟨data, hrecord, hqueued⟩ := h
  have hrecord' : (s.next pack (.daemon e)).ownRecord pack = some data :=
    (ownRecord_daemon he.1).trans hrecord
  refine ⟨data, hrecord', ?_⟩
  cases hqueues : s.queues (.daemon e) with
  | none => simp [next, hqueues, hqueued]
  | some x =>
    obtain ⟨j, p, sent⟩ := x
    obtain ⟨n, srcPort, dstPort, rfl, hrelays⟩ := queues_daemon hqueues
    simp only [next, hqueues, Option.elim_some, record_apply]
    split_ifs with hsame
    · obtain ⟨rfl, rfl⟩ := hsame
      obtain ⟨current, hframe, hcurrent⟩ := hreach hsettling hrelays
      obtain ⟨_, _, rfl⟩ := Frame.data.inj hframe
      exact hcurrent.symm.trans hrecord
    · exact hqueued

/-- A step of the daemon keeps every live connection covered while `open_new_sockets` runs. -/
theorem Covered.daemon (hall : ∀ k q, s.Live k q → s.Covered pack k q)
    (hfresh : s.daemon.Fresh) (hrunning : ¬ s.Finished) (he : s.enabled pack (.daemon e))
    (hreach : s.reaches pack (.daemon e)) (hlive : (s.next pack (.daemon e)).Live k q) :
    (s.next pack (.daemon e)).Covered pack k q := by
  by_cases hunread : s.Unread k
  · exact .unread hunread
  have hopen : k ∈ s.daemon.openSockets := (openSockets_daemon he.1) ▸ hlive.1
  have hsettling : s.Settling k := ⟨hopen, hunread, hrunning⟩
  rcases Daemon.alive_of_next he.2 hlive.1 hlive.2 with hold | ⟨session, rfl⟩ |
    ⟨n, session, message, rfl⟩
  · cases hall k q hold with
    | informed h => exact .informed (h.daemon he hreach hsettling)
    | announced h =>
      rcases h.daemon hfresh he hlive with h | h
      · exact .announced h
      · exact .informed h
    | unread h => exact absurd h hunread
    | pending h => exact .pending h
  · exact absurd hsettling hreach
  · obtain ⟨hrelays, hrecord⟩ := hreach hsettling
    exact .announced (.opened hrelays hrecord)

/-- The invariant of `open_new_sockets`: the record that it publishes is the current one, and while
it runs each live connection has that record or is to get it. -/
structure Sound (pack : MessagePack) (s : NetworkMain tls) : Prop where
  fresh : s.daemon.Fresh
  peer : ∀ peer sockets connections, s.phase = .publishing peer sockets connections →
    peer = s.daemon.myPeerInformation ∧ (s.ownRecord pack).isSome = true
  covered : ¬ s.Finished → ∀ k q, s.Live k q → s.Covered pack k q

variable {e : MainEvent tls}

theorem Sound.new (network : NetworkState) : (new tls network).Sound pack where
  fresh := .new network
  peer _ _ _ hphase := by cases hphase
  covered _ _ _ hlive := by cases hlive.1

/-- A live connection whose socket is no longer unread has been found in the map, unless it was
covered otherwise. -/
theorem Covered.readConnections {peer : Peer} {j : ℕ} {sockets : List ℕ}
    (h : s.Covered pack k q) (hlive : s.Live k q)
    (he : s.enabled pack (.readConnections peer j sockets))
    (hreach : s.reaches pack (.readConnections peer j sockets)) :
    (s.next pack (.readConnections peer j sockets)).Covered pack k q := by
  have hphase : s.phase = .publishing peer (j :: sockets) [] := he.1
  cases h with
  | informed h => exact .informed h
  | announced h => exact .announced h
  | unread h =>
    rcases List.mem_cons.mp ((unread_publishing hphase).mp h) with rfl | h
    · rcases hreach q hlive with h | h | h
      · exact .pending (List.mem_map.mpr ⟨q, h, rfl⟩)
      · exact .informed h
      · exact .announced h
    · exact .unread h
  | pending h => simp [pending_publishing hphase] at h

theorem Covered.sendPeerInfo {peer : Peer} {sockets : List ℕ} {j p : ℕ}
    {connections : List (ℕ × ℕ)} {data : Bytes} (h : s.Covered pack k q) (hs : s.Sound pack)
    (he : s.enabled pack (.sendPeerInfo peer sockets j p connections data)) :
    (s.next pack (.sendPeerInfo peer sockets j p connections data)).Covered pack k q := by
  obtain ⟨⟨hphase, hdata⟩, -⟩ := he
  have hrecord : s.ownRecord pack = some data := by rw [← hdata, (hs.peer _ _ _ hphase).1]; rfl
  have hqueued : ∀ k q, (s.next pack (.sendPeerInfo peer sockets j p connections data)).queued k q
      = if k = j ∧ q = p then some data else s.queued k q := fun k q => record_apply ..
  by_cases hsame : k = j ∧ q = p
  · exact .informed ⟨data, hrecord, by rw [hqueued, if_pos hsame]⟩
  cases h with
  | informed h =>
    obtain ⟨current, hcurrent, hlast⟩ := h
    exact .informed ⟨current, hcurrent, by rw [hqueued, if_neg hsame, hlast]⟩
  | announced h => exact .announced h
  | unread h => exact .unread ((unread_publishing hphase).mp h)
  | pending h =>
    rw [pending_publishing hphase, List.mem_cons, Prod.mk.injEq] at h
    exact .pending (h.resolve_left hsame)

theorem Covered.sendFailed {peer : Peer} {sockets : List ℕ} {j p : ℕ}
    {connections : List (ℕ × ℕ)} (h : s.Covered pack k q) (hs : s.Sound pack) (hlive : s.Live k q)
    (he : s.enabled pack (.sendFailed peer sockets j p connections)) :
    (s.next pack (.sendFailed peer sockets j p connections)).Covered pack k q := by
  obtain ⟨⟨hphase, hfailed⟩, -⟩ := he
  cases h with
  | informed h => exact .informed h
  | announced h => exact .announced h
  | unread h => exact .unread ((unread_publishing hphase).mp h)
  | pending h =>
    rw [pending_publishing hphase, List.mem_cons, Prod.mk.injEq] at h
    rcases h with ⟨rfl, rfl⟩ | h
    · obtain ⟨rfl, hrecord⟩ := hs.peer _ _ _ hphase
      rcases hfailed with hnone | hended
      · rw [ownRecord, hnone] at hrecord
        cases hrecord
      · exact absurd hended hlive.writeTask
    · exact .pending h

/-- A step keeps every live connection covered while `open_new_sockets` runs. -/
theorem Sound.covered_next (h : s.Sound pack) (hrunning : ¬ s.Finished) (he : s.enabled pack e)
    (hreach : s.reaches pack e) (hlive : (s.next pack e).Live k q) :
    (s.next pack e).Covered pack k q := by
  cases e with
  | daemon e => exact .daemon (h.covered hrunning) h.fresh hrunning he hreach hlive
  | discover | closeStale | select | openSocket | openFailed => exact .unread trivial
  | publish => exact .unread hlive.1
  | readConnections peer j sockets =>
    exact (h.covered hrunning k q hlive).readConnections hlive he hreach
  | sendPeerInfo peer sockets j p connections data =>
    have hold : s.Live k q := by
      rcases Daemon.alive_of_next he.2 hlive.1 hlive.2 with hold | ⟨_, heq⟩ | ⟨_, _, _, heq⟩
      · exact hold
      · cases heq
      · cases heq
    exact (h.covered hrunning k q hold).sendPeerInfo h he
  | sendFailed peer sockets j p connections =>
    exact (h.covered hrunning k q hlive).sendFailed h hlive he
  | finish peer =>
    have hphase : s.phase = .publishing peer [] [] := he.1
    cases h.covered hrunning k q hlive with
    | informed h => exact .informed h
    | announced h => exact .announced h
    | unread h => simp [Unread, hphase] at h
    | pending h => simp [pending, hphase] at h

theorem daemon_next (he : s.enabled pack e) : (s.next pack e).daemon = s.daemon ∨
    ∃ x, e.onDaemon = some x ∧ s.daemon.enabled pack x ∧
      (s.next pack e).daemon = s.daemon.next pack x := by
  cases hx : e.onDaemon with
  | none => exact .inl (by simp [next, hx])
  | some x =>
    have hen := he.2
    rw [hx] at hen
    exact .inr ⟨x, rfl, hen, by simp [next, hx]⟩

theorem Sound.peer_next (h : s.Sound pack) (he : s.enabled pack e) (hreach : s.reaches pack e)
    (peer : Peer) (sockets : List ℕ) (connections : List (ℕ × ℕ))
    (hphase : (s.next pack e).phase = .publishing peer sockets connections) :
    peer = (s.next pack e).daemon.myPeerInformation ∧
      ((s.next pack e).ownRecord pack).isSome = true := by
  cases e with
  | daemon e =>
    obtain ⟨hpeer, hrecord⟩ := h.peer peer sockets connections hphase
    exact ⟨hpeer.trans (Daemon.myPeerInformation_next he.1).symm,
      (congrArg Option.isSome (ownRecord_daemon he.1)).trans hrecord⟩
  | discover | closeStale | select | openSocket | openFailed | finish => cases hphase
  | publish =>
    obtain ⟨rfl, -, -⟩ := MainPhase.publishing.inj hphase
    exact ⟨rfl, hreach⟩
  | readConnections =>
    obtain ⟨rfl, -, -⟩ := MainPhase.publishing.inj hphase
    exact h.peer _ _ _ he.1
  | sendPeerInfo | sendFailed =>
    obtain ⟨rfl, -, -⟩ := MainPhase.publishing.inj hphase
    exact h.peer _ _ _ he.1.1

theorem Sound.next (h : s.Sound pack) (he : s.enabled pack e) (hreach : s.reaches pack e) :
    (s.next pack e).Sound pack where
  fresh := by
    rcases daemon_next he with hd | ⟨x, _, hen, hd⟩
    · rw [hd]
      exact h.fresh
    · rw [hd]
      exact h.fresh.next hen
  peer := h.peer_next he hreach
  covered := by
    intro hrunning k q hlive
    by_cases hfinished : s.Finished
    · -- Only another call of `open_new_sockets` makes a finished state run again.
      have hidle := hfinished.1
      cases e with
      | daemon e => exact absurd (hfinished.daemon he) hrunning
      | discover => exact .unread trivial
      | sendPeerInfo | sendFailed => exact absurd (hidle.symm.trans he.1.1) (by simp)
      | _ => exact absurd (hidle.symm.trans he.1) (by simp)
    · exact h.covered_next hfinished he hreach hlive

theorem Finished.of_daemon {e : DaemonEvent tls} (htask : e.onTask = some n) (hn : n < s.first)
    (h : (s.next pack (.daemon e)).Finished) : s.Finished := by
  obtain ⟨hidle, htasks⟩ := h
  refine ⟨hidle, fun m hm hfirst hrelays => ?_⟩
  have hevent : e.onTask ≠ some m := by
    rw [htask]
    rintro heq
    obtain rfl := Option.some.inj heq
    omega
  have hsame : (s.next pack (.daemon e)).daemon.tasks m = s.daemon.tasks m :=
    Daemon.tasks_next _ e hevent (.inl hm)
  have hreturned := htasks m (Nat.lt_of_lt_of_le hm (Daemon.nextTask_le _ e)) hfirst
    (by rw [hsame, hrelays])
  rwa [hsame] at hreturned

theorem not_announces (hfresh : s.daemon.Fresh) (he : s.enabled pack e)
    (hreach : s.Reaches pack e) (hrunning : ¬ s.Finished) (h : (s.next pack e).Finished) :
    ¬ (s.next pack e).Announces pack k q := by
  rintro ⟨n, data, hrelays, hphase, -⟩
  have hguard := hreach.2 hrunning h
  have hsending : ((s.next pack e).daemon.tasks n).phase ≠ .idle := by rw [hphase]; simp
  have hlate : (s.next pack e).first ≤ n → n < (s.next pack e).daemon.nextTask → False :=
    fun hfirst hn => hsending (h.2 n hn hfirst hrelays).1
  have hidle := h.1
  cases e with
  | daemon e =>
    have hn : n < (s.next pack (.daemon e)).daemon.nextTask := (hfresh.next he.2).lt hsending
    have hearly : n < s.first := Nat.lt_of_not_le fun hfirst => hlate hfirst hn
    by_cases htask : e.onTask = some n
    · exact hrunning (h.of_daemon htask hearly)
    have hold : n < s.daemon.nextTask := by
      by_contra hle
      have hnone := Daemon.isRelays_spawned he.1 (Nat.le_of_not_lt hle) hn
      exact absurd (hrelays.symm.trans hnone) (by simp)
    have hsame : (s.next pack (.daemon e)).daemon.tasks n = s.daemon.tasks n :=
      Daemon.tasks_next _ e htask (.inl hold)
    rw [hsame] at hrelays hphase
    exact hguard n hearly k q _ hrelays hphase
  | finish peer =>
    have hearly : n < s.first :=
      Nat.lt_of_not_le fun hfirst => hlate hfirst (hfresh.lt hsending)
    exact hguard n hearly k q _ hrelays hphase
  | _ => cases hidle

/-- With the step that finishes the call every live connection has the current record. -/
theorem Sound.informed_next (h : s.Sound pack) (he : s.enabled pack e)
    (hreach : s.Reaches pack e) (hrunning : ¬ s.Finished) (hfinished : (s.next pack e).Finished)
    (hlive : (s.next pack e).Live k q) : (s.next pack e).Informed pack k q := by
  have hphase := hfinished.1
  cases h.covered_next hrunning he hreach.1 hlive with
  | informed h => exact h
  | announced hannounced =>
    exact absurd hannounced (not_announces h.fresh he hreach hrunning hfinished)
  | unread h => simp [Unread, hphase] at h
  | pending h => simp [pending, hphase] at h

/-- When `open_new_sockets` and its relay tasks finish, the current record is the last that was
queued on every live connection. -/
theorem addresses_reach_peers (r : Run (networkMainMachine tls pack))
    (reaches : ∀ x ∈ r.transitions, x.source.Reaches pack x.label) :
    ∀ x ∈ r.transitions, ¬ x.source.Finished → x.target.Finished →
      ∀ k q, x.target.Live k q → x.target.Informed pack k q := by
  have hstart : r.start.Sound pack := by
    obtain ⟨network, hnew⟩ := r.starts
    rw [hnew]
    exact .new network
  have hsound := (r.path.guarded_invariant (P := Sound pack) (G := Reaches pack)
    (fun s e hs hreach he => hs.next he hreach.1) hstart reaches).2
  intro x hx hrunning hfinished k q hlive
  obtain ⟨he, htarget⟩ := guarded_step.mp (r.path.step_of_mem hx)
  rw [← htarget] at hfinished hlive ⊢
  exact (hsound x hx).1.informed_next he (reaches x hx) hrunning hfinished hlive

/-- The main task and the daemon's other tasks make the steps of a daemon. -/
theorem networkMainMachine_refines :
    Refines (networkMainMachine tls pack) (daemonMachine tls pack) daemon := by
  apply Refines.guarded_part MainEvent.onDaemon
  · rintro s ⟨network, rfl⟩
    exact ⟨network, rfl⟩
  · exact fun s e => rfl
  · intro s e he x hx
    have hen := he.2
    rwa [hx] at hen

end NetworkMain

section Addresses

def secondAddr : SocketAddrV6 := ⟨0xfd000000000000000000000000000009, 65041, 0, 0⟩

def firstRecord : Peer := ⟨waitingNetwork.id, [localAddr], [digestOne]⟩

def secondRecord : Peer := ⟨waitingNetwork.id, [secondAddr, localAddr], [digestOne]⟩

def recordsPack : MessagePack := .ofTable [writePeer firstRecord, writePeer secondRecord]

/-- The first of two sockets connects to the relay before the second is opened. -/
def openingEvents : List (MainEvent keyTls) :=
  [.discover [localAddr, secondAddr], .select [localAddr, secondAddr],
    .openSocket localAddr [secondAddr], .daemon (.relayOpen 0 0 digestOne [] hostAddr)] ++
  (forwarded 0 (.v6 hostAddr) [22] 0 false).map .daemon ++
  [.daemon (.socket 0 (.openRead 0 ⟨0, .v6 hostAddr, [22]⟩)),
    .daemon (.opened 0 0 0 (keySession [1]) none),
    .daemon (.send 0 0 0 (.data 0 0 (writePeer firstRecord).2)), .openSocket secondAddr []]

/-- No socket has registered the connection when the second record is published. -/
def publishingEvents : List (MainEvent keyTls) :=
  [.publish, .readConnections secondRecord 1 [0], .readConnections secondRecord 0 [],
    .daemon (.relayOpen 2 1 digestOne [] hostAddr), .daemon (.openFailed 2 1 0 none)]

instance (s : NetworkMain tls) (k q : ℕ) : Decidable (s.Live k q) :=
  inferInstanceAs (Decidable (k ∈ s.daemon.openSockets ∧
    ((s.daemon.table k).endpoints q).satisfies fun c =>
      c.readTask ≠ .ended ∧ c.writeTask ≠ .ended))

def NetworkMain.relaysDone (s : NetworkMain keyTls) : Bool :=
  decide (s.phase = .idle ∧ ∀ n < s.daemon.nextTask, (s.daemon.tasks n).loop.isRelays = true →
    s.daemon.tasks n = ⟨.relays (n / 2) [], .idle⟩)

theorem NetworkMain.Finished.of_done {s : NetworkMain keyTls} (h : s.relaysDone = true) :
    s.Finished := by
  obtain ⟨hidle, htasks⟩ := of_decide_eq_true h
  refine ⟨hidle, fun n hn _ hrelays => ?_⟩
  rw [htasks n hn hrelays]
  exact ⟨rfl, rfl⟩

theorem relay_keeps_old_record : ∃ r : Run (networkMainMachine keyTls recordsPack),
    ∃ x ∈ r.transitions, ¬ x.source.Finished ∧ x.target.Finished ∧
      ∃ k q, x.target.Live k q ∧ ¬ x.target.Informed recordsPack k q := by
  obtain ⟨r, _, x, hx, hlabel, hp, hq⟩ :=
    exec_visits (M := networkMainMachine keyTls recordsPack)
    ⟨{ waitingNetwork with relays := [digestOne] }, rfl⟩ (openingEvents ++ publishingEvents)
    (.finish secondRecord) (p := fun s => decide (s.phase ≠ .idle))
    (q := fun s => s.relaysDone && decide (s.Live 0 0 ∧
      s.queued 0 0 ≠ s.ownRecord recordsPack)) (by decide +kernel)
  obtain ⟨hdone, hlast⟩ := (Bool.and_eq_true ..).mp hq
  obtain ⟨hlive, hrecord⟩ := of_decide_eq_true hlast
  refine ⟨r, x, hx, fun h => of_decide_eq_true hp h.1, .of_done hdone, 0, 0, hlive, ?_⟩
  rintro ⟨data, hown, hqueued⟩
  exact hrecord (hqueued.trans hown.symm)

/-- A host is accepted and the relay is connected to, its handshake ends after the map is read. -/
def announcingEvents : List (MainEvent keyTls) :=
  [.discover [localAddr], .select [localAddr], .openSocket localAddr []] ++
  acceptingEvents.tail.map .daemon ++
  [.daemon (.relayOpen 0 0 digestOne [] hostAddr), .publish, .readConnections firstRecord 0 []] ++
  (forwarded 1 (.v6 hostAddr) [22] 1 false).map .daemon ++
  [.daemon (.socket 0 (.openRead 1 ⟨1, .v6 hostAddr, [22]⟩)),
    .daemon (.opened 0 0 1 (keySession [1]) none),
    .daemon (.send 0 0 1 (.data 0 0 (writePeer firstRecord).2)),
    .sendPeerInfo firstRecord [] 0 0 [] (writePeer firstRecord).2]

namespace NetworkMain

def reachesTest (s : NetworkMain keyTls) : MainEvent keyTls → Bool
  | .daemon (.socket _ (.accepted ..)) => decide (s.phase = .opening [])
  | .daemon (.opened n ..) =>
    (s.daemon.tasks n).loop.isRelays && (s.ownRecord recordsPack).isSome
  | .daemon (.send _ _ _ frame) => decide (controlFrame (s.ownRecord recordsPack) = some frame)
  | .publish => (s.ownRecord recordsPack).isSome
  | .readConnections _ k _ => decide (∀ q < (s.daemon.table k).io.nextQueue,
    s.Live k q → q ∈ (s.daemon.table k).registeredConnections)
  | _ => true

theorem reaches_of_test {s : NetworkMain keyTls} {e : MainEvent keyTls}
    (hd : s.daemon.WellFormed) (h : s.reachesTest e = true) : s.reaches recordsPack e := by
  cases e with
  | daemon e =>
    cases e with
    | socket k se =>
      cases se with
      | accepted q session =>
        rintro ⟨-, hunread, -⟩
        have hphase : s.phase = .opening [] := of_decide_eq_true h
        simp [Unread, hphase] at hunread
      | _ => trivial
    | opened n k q session message => exact fun _ => (Bool.and_eq_true ..).mp h
    | send n k q frame =>
      intro _ _
      obtain ⟨data, hdata, hframe⟩ := Option.map_eq_some_iff.mp (of_decide_eq_true h)
      exact ⟨data, hframe.symm, hdata⟩
    | _ => trivial
  | publish => exact h
  | readConnections peer k sockets =>
    intro q hlive
    refine .inl (of_decide_eq_true h q ?_ hlive)
    by_contra hge
    have hnone := (hd.owners k).fresh q (Nat.le_of_not_lt hge)
    have halive := hlive.2
    rw [hnone] at halive
    exact halive
  | _ => trivial

end NetworkMain

theorem addresses_reach_both : ∃ r : Run (networkMainMachine keyTls recordsPack),
    ∃ x ∈ r.transitions, ¬ x.source.Finished ∧ x.target.Finished ∧
      (x.target.Live 0 0 ∧ x.target.Informed recordsPack 0 0) ∧
      (x.target.Live 0 1 ∧ x.target.Informed recordsPack 0 1) := by
  obtain ⟨r, htest, x, hx, hlabel, hp, hq⟩ :=
    exec_visits_tested (M := networkMainMachine keyTls recordsPack)
    (g := fun s e => s.reachesTest e && decide (s.first = 0))
    ⟨{ waitingNetwork with relays := [digestOne] }, rfl⟩ announcingEvents
    (.finish firstRecord) (p := fun s => decide (s.phase ≠ .idle))
    (q := fun s => s.relaysDone && decide (s.Live 0 0 ∧ s.Live 0 1)) (by decide +kernel)
  have hreaches : ∀ y ∈ r.transitions, y.source.Reaches recordsPack y.label := by
    intro y hy
    obtain ⟨hg, hzero⟩ := (Bool.and_eq_true ..).mp (htest y hy)
    have hd := NetworkMain.networkMainMachine_refines.reachable (r.reachable_of_mem hy).1
    refine ⟨NetworkMain.reaches_of_test (.of_reachable hd) hg, fun _ _ n hn => ?_⟩
    rw [of_decide_eq_true hzero] at hn
    exact absurd hn (Nat.not_lt_zero n)
  obtain ⟨hdone, hlast⟩ := (Bool.and_eq_true ..).mp hq
  obtain ⟨hfirst, hsecond⟩ := of_decide_eq_true hlast
  have hrunning : ¬ x.source.Finished := fun h => of_decide_eq_true hp h.1
  have hinformed := NetworkMain.addresses_reach_peers r hreaches x hx hrunning (.of_done hdone)
  exact ⟨r, x, hx, hrunning, .of_done hdone, ⟨hfirst, hinformed 0 0 hfirst⟩,
    hsecond, hinformed 0 1 hsecond⟩

end Addresses

end Uip
