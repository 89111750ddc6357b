import Uip.DaemonTasks

/-! Whether a connection that has ended is still handed out. Its entry in the connections map
stays when its tasks end; only another accepted connection of the same host on the same
socket replaces it, and only the close of the socket removes it. -/
namespace Uip
open TransitionSystem Transport

variable {tls : Tls} {pack : MessagePack}

namespace Daemon

variable {d : Daemon tls} {e : DaemonEvent tls} {k q : ℕ} {x : Identifier}

/-- The scan of `get_connection(x)` may return the connection `q` of the socket `k`. -/
def HandsOut (d : Daemon tls) (k q : ℕ) (x : Identifier) : Prop :=
  k ∈ d.openSockets ∧ (d.table k).getConnection x = some q

instance (d : Daemon tls) (k q : ℕ) (x : Identifier) : Decidable (d.HandsOut k q x) :=
  inferInstanceAs (Decidable (_ ∧ _))

/-- The connection stored for `x` on an open socket, whose write task has ended. -/
def StoresEnded (d : Daemon tls) (k q : ℕ) (x : Identifier) : Prop :=
  d.HandsOut k q x ∧ ((d.table k).endpoints q).satisfies fun c => c.writeTask = .ended

instance (d : Daemon tls) (k q : ℕ) (x : Identifier) : Decidable (d.StoresEnded k q x) :=
  inferInstanceAs (Decidable (_ ∧ _))

/-- The step ends the write task of the connection stored for `x`, or stores a connection of `x`
whose write task has ended before. -/
def endsStored (d : Daemon tls) (k q : ℕ) (x : Identifier) : DaemonEvent tls → Prop
  | .socket j (.connection p (.writeError _)) | .socket j (.connection p .writeClosed) =>
    j = k ∧ p = q ∧ d.HandsOut k q x
  | .socket j (.register p) => j = k ∧ p = q ∧ k ∈ d.openSockets ∧
      ((d.table k).endpoints q).satisfies fun c => c.remoteId = x ∧ c.writeTask = .ended
  | _ => False

/-- The step replaces the entry of `x` by another connection, or closes the socket. -/
def replaces (d : Daemon tls) (k q : ℕ) (x : Identifier) : DaemonEvent tls → Prop
  | .socket j (.register p) => j = k ∧ p ≠ q ∧
      ((d.table k).endpoints p).satisfies fun c => c.remoteId = x
  | .closeSocket _ j => j = k
  | _ => False

/-- A task that asks for a connection to `x` is handed one whose write task runs, or goes on to
open a connection. -/
def HandsOutRunning (pack : MessagePack) (d : Daemon tls) (x : Identifier) : Prop :=
  ∀ n message, (d.tasks n).phase = .lookup x message →
    (∃ e, e.onTask = some n ∧ d.enabled pack e) ∧
    ∀ e, e.onTask = some n → d.enabled pack e → e = .missing n x message ∨
      ∃ k q, e = .found n k q x message ∧ ((d.table k).endpoints q).satisfies fun c =>
        c.remoteId = x ∧ c.writeTask ≠ .ended

theorem not_handsOut_replaced (hw : d.WellFormed) (he : d.enabled pack e)
    (hr : d.replaces k q x e) : ¬ (d.next pack e).HandsOut k q x := by
  rintro ⟨hopen, hq⟩
  obtain ⟨a, ha⟩ := mem_openSockets.mp hopen
  cases e with
  | socket j se =>
    cases se with
    | register p =>
      obtain ⟨rfl, hne, hp⟩ := hr
      obtain ⟨c, hc, hx⟩ := Endpoint.satisfies_iff.mp hp
      have htable : (d.next pack (.socket j (.register p))).table j =
          (d.table j).next (.register p) := Function.update_self ..
      rw [htable] at hq
      simp only [Socket.getConnection, Socket.next, Socket.effect, Socket.register, hc,
        HashMap.lookup_insert_if, hx, if_true, Option.some.injEq] at hq
      exact hne hq
    | _ => exact hr
  | closeSocket address j =>
    obtain rfl : j = k := hr
    rcases sockets_of_next ha with ⟨hold, hclose⟩ | ⟨heq, _⟩
    · exact hclose (by rw [hw.unique a address j hold he.1])
    · cases heq
  | _ => exact hr

theorem HandsOut.next (h : d.HandsOut k q x) (hw : d.WellFormed) (he : d.enabled pack e)
    (hg : ¬ d.replaces k q x e) : (d.next pack e).HandsOut k q x := by
  obtain ⟨hopen, hq⟩ := h
  obtain ⟨a, ha⟩ := mem_openSockets.mp hopen
  refine ⟨mem_openSockets.mpr ⟨a, ?_⟩, ?_⟩
  · rw [next_sockets]
    cases e with
    | openSocket address =>
      have hne : a ≠ address := by
        rintro rfl
        cases he.1.symm.trans ha
      rw [HashMap.lookup_insert_if, if_neg hne, ha]
    | closeSocket address j =>
      have hne : a ≠ address := by
        rintro rfl
        exact hg (Option.some.inj (he.1.symm.trans ha))
      rw [HashMap.lookup_erase_if, if_neg hne, ha]
    | _ => exact ha
  · rcases next_table he k with hs | ⟨se, hx, hen, hs⟩ | ⟨_, _, rfl, _⟩
    · rw [hs, hq]
    · rw [hs]
      rcases Socket.next_connections hen x with hsame | ⟨p, c, rfl, hc, hid, hp⟩ | ⟨rfl, _⟩
      · exact hsame.trans hq
      · have hpq : p = q := by
          by_contra hne
          obtain rfl := onSocket_internal hx rfl (by simp)
          exact hg ⟨rfl, hne, Endpoint.satisfies_iff.mpr ⟨c, hc, hid⟩⟩
        exact hpq ▸ hp
      · obtain ⟨address, rfl⟩ := onSocket_close he hx
        exact absurd rfl hg
    · exact absurd (hw.lt a _ ha) (Nat.lt_irrefl _)

theorem StoresEnded.next (h : d.StoresEnded k q x) (hw : d.WellFormed) (he : d.enabled pack e)
    (hg : ¬ d.replaces k q x e) : (d.next pack e).StoresEnded k q x := by
  obtain ⟨hhands, hended⟩ := h
  refine ⟨hhands.next hw he hg, ?_⟩
  obtain ⟨c, hc, hwrite⟩ := Endpoint.satisfies_iff.mp hended
  obtain ⟨a, ha⟩ := mem_openSockets.mp hhands.1
  rcases next_table he k with hs | ⟨se, _, hen, hs⟩ | ⟨_, _, rfl, _⟩
  · rwa [hs]
  · obtain ⟨c', hc', hkeeps⟩ := (hw.owners k).next_connection hen hc
    rw [hs]
    exact Endpoint.satisfies_iff.mpr ⟨c', hc', hkeeps.writeTask hwrite⟩
  · exact absurd (hw.lt a _ ha) (Nat.lt_irrefl _)

theorem storesEnded_of_endsStored (hw : d.WellFormed) (he : d.enabled pack e)
    (hends : d.endsStored k q x e) : (d.next pack e).StoresEnded k q x := by
  cases e with
  | socket j se =>
    have htable : (d.next pack (.socket j se)).table j = (d.table j).next se :=
      Function.update_self ..
    cases se with
    | connection p ce =>
      have hended : j = k ∧ p = q ∧ d.HandsOut k q x ∧
          ∀ c : Connection tls, (c.next ce).writeTask = .ended := by
        cases ce with
        | writeError | writeClosed =>
          obtain ⟨hj, hp, hhands⟩ := hends
          exact ⟨hj, hp, hhands, fun _ => rfl⟩
        | _ => exact hends.elim
      obtain ⟨rfl, rfl, hhands, hwrite⟩ := hended
      refine ⟨hhands.next hw he id, ?_⟩
      obtain ⟨c, hc, -⟩ := (hw.owners j).registered x p hhands.2
      rw [htable]
      refine Endpoint.satisfies_iff.mpr ⟨c.next ce, ?_, hwrite c⟩
      simp [Socket.next_endpoints, Socket.effect, Socket.updateConnection, Socket.updateEndpoint,
        hc, Endpoint.map]
    | register p =>
      obtain ⟨rfl, rfl, hopen, hp⟩ := hends
      obtain ⟨c, hc, hid, hwrite⟩ := Endpoint.satisfies_iff.mp hp
      refine ⟨⟨hopen, ?_⟩, ?_⟩
      · rw [htable]
        simp [Socket.getConnection, Socket.next, Socket.effect, Socket.register, hc,
          hid]
      · rw [htable]
        refine Endpoint.satisfies_iff.mpr ⟨c, ?_, hwrite⟩
        simp only [Socket.next_endpoints, Socket.effect, Socket.register, hc]
    | _ => exact hends.elim
  | _ => exact hends.elim

theorem storesEnded_of_next (hw : d.WellFormed) (he : d.enabled pack e)
    (ht : (d.next pack e).StoresEnded k q x) : d.endsStored k q x e ∨ d.StoresEnded k q x := by
  obtain ⟨⟨hopen', hq⟩, hended⟩ := ht
  obtain ⟨c', hc', hwrite'⟩ := Endpoint.satisfies_iff.mp hended
  have hopen : k ∈ d.openSockets := by
    rcases openSockets_of_next hopen' with hold | hnew
    · exact hold
    · rw [hnew] at hc'
      cases hc'
  rcases next_table he k with hs | ⟨se, hx, hen, hs⟩ | ⟨_, _, _, hs⟩
  · rw [hs] at hq hended
    exact .inr ⟨⟨hopen, hq⟩, hended⟩
  · rw [hs] at hq hc'
    rcases Socket.next_connections hen x with hsame | ⟨p, c, rfl, hc, hid, hp⟩ | ⟨rfl, hnone⟩
    · have hhands : d.HandsOut k q x := ⟨hopen, hsame.symm.trans hq⟩
      obtain ⟨c, hc, -⟩ := (hw.owners k).registered x q hhands.2
      rcases (hw.owners k).sink_next hen hc hc' with ⟨-, hwrite⟩ | ⟨ce, rfl, hce, rfl⟩
      · exact .inr ⟨hhands, Endpoint.satisfies_iff.mpr ⟨c, hc, hwrite.symm.trans hwrite'⟩⟩
      · rcases Connection.writeTask_ended_of_next hwrite' with hwrite | ⟨f, rfl⟩ | rfl
        · exact .inr ⟨hhands, Endpoint.satisfies_iff.mpr ⟨c, hc, hwrite⟩⟩
        · obtain rfl := onSocket_internal hx rfl (by simp)
          exact .inl ⟨rfl, rfl, hhands⟩
        · obtain rfl := onSocket_internal hx rfl (by simp)
          exact .inl ⟨rfl, rfl, hhands⟩
    · obtain rfl := onSocket_internal hx rfl (by simp)
      obtain rfl : p = q := Option.some.inj (hp.symm.trans hq)
      have hsame : ((d.table k).next (.register p)).endpoints p = (d.table k).endpoints p := by
        simp only [Socket.next_endpoints, Socket.effect, Socket.register]
        split <;> rfl
      obtain rfl : c = c' := Endpoint.connection.inj (hc.symm.trans (hsame.symm.trans hc'))
      exact .inl ⟨rfl, rfl, hopen, Endpoint.satisfies_iff.mpr ⟨c, hc, hid, hwrite'⟩⟩
    · cases hnone.symm.trans hq
  · rw [hs] at hc'
    cases hc'

/-- An entry with an ended connection comes from the end of its write task or from its
registration, and goes where it is replaced. -/
theorem storesEnded_next (hw : d.WellFormed) (he : d.enabled pack e) :
    (d.next pack e).StoresEnded k q x ↔
      d.endsStored k q x e ∨ d.StoresEnded k q x ∧ ¬ d.replaces k q x e := by
  constructor
  · intro ht
    rcases storesEnded_of_next hw he ht with hends | hstored
    · exact .inl hends
    · exact .inr ⟨hstored, fun hr => not_handsOut_replaced hw he hr ht.1⟩
  · rintro (hends | ⟨hstored, hg⟩)
    · exact storesEnded_of_endsStored hw he hends
    · exact hstored.next hw he hg

theorem storesEnded_iff (r : Run (daemonMachine tls pack)) :
    r.final.StoresEnded k q x ↔ ∃ before y after, r.transitions = before ++ y :: after ∧
      y.source.endsStored k q x y.label ∧ ∀ z ∈ after, ¬ z.source.replaces k q x z.label := by
  obtain ⟨network, hstart⟩ := r.starts
  refine r.path.guarded_brought_iff (I := WellFormed) (P := fun d => d.StoresEnded k q x)
    (S := fun d e => d.endsStored k q x e) (C := fun d e => d.replaces k q x e)
    (fun d e hw he => hw.next he) (fun d e hw he => storesEnded_next hw he) ?_ ?_
  · rw [hstart]
    exact .new network
  · rintro ⟨⟨hopen, -⟩, -⟩
    obtain ⟨a, ha⟩ := mem_openSockets.mp hopen
    rw [hstart] at ha
    simp [Daemon.new, AList.lookup_empty] at ha

/-- A task that asks for a connection only makes the steps that end its scan. -/
theorem lookup_event (he : d.enabled pack e) {n : ℕ} (htask : e.onTask = some n)
    {message : Option Frame} (hphase : (d.tasks n).phase = .lookup x message) :
    e = .missing n x message ∨ ∃ k q, e = .found n k q x message ∧ d.HandsOut k q x := by
  have hadmits := he.1
  cases e with
  | take m j delivery =>
    obtain rfl := Option.some.inj htask
    rw [show d.tasks m = _ from hadmits] at hphase
    cases hphase
  | panicked m j delivery =>
    obtain rfl := Option.some.inj htask
    rw [show d.tasks m = _ from hadmits.1] at hphase
    cases hphase
  | relayKnown m j relay rest | relayUnknown m j relay rest | relayOpen m j relay rest =>
    obtain rfl := Option.some.inj htask
    rw [show d.tasks m = _ from hadmits.1] at hphase
    cases hphase
  | found m k q host message' =>
    obtain rfl := Option.some.inj htask
    obtain ⟨rfl, rfl⟩ := Phase.lookup.inj (hphase.symm.trans hadmits.1)
    exact .inr ⟨k, q, rfl, hadmits.2⟩
  | missing m host message' =>
    obtain rfl := Option.some.inj htask
    obtain ⟨rfl, rfl⟩ := Phase.lookup.inj (hphase.symm.trans hadmits.1)
    exact .inl rfl
  | upstream m | process m | unconnectable m | choose m | sendFailed m =>
    obtain rfl := Option.some.inj htask
    exact absurd (hphase.symm.trans hadmits.1) (by simp)
  | opened m | openFailed m | send m | returned m =>
    obtain rfl := Option.some.inj htask
    exact absurd (hphase.symm.trans hadmits) (by simp)
  | _ => cases htask

theorem exists_lookup_event {n : ℕ} {message : Option Frame}
    (hphase : (d.tasks n).phase = .lookup x message) :
    ∃ e, e.onTask = some n ∧ d.enabled pack e := by
  by_cases hunknown : d.unknown x
  · exact ⟨.missing n x message, rfl, ⟨hphase, hunknown⟩, trivial⟩
  · simp only [unknown, not_forall] at hunknown
    obtain ⟨k, hopen, hsome⟩ := hunknown
    obtain ⟨q, hq⟩ := Option.ne_none_iff_exists'.mp hsome
    exact ⟨.found n k q x message, rfl, ⟨hphase, hopen, hq⟩, trivial⟩

theorem handsOutRunning_iff (hw : d.WellFormed) {n : ℕ} {message : Option Frame}
    (hphase : (d.tasks n).phase = .lookup x message) :
    d.HandsOutRunning pack x ↔ ∀ k q, ¬ d.StoresEnded k q x := by
  constructor
  · rintro hrunning k q ⟨⟨hopen, hq⟩, hended⟩
    rcases (hrunning n message hphase).2 (.found n k q x message) rfl ⟨⟨hphase, hopen, hq⟩, trivial⟩
      with heq | ⟨k', q', heq, hruns⟩
    · cases heq
    · obtain ⟨-, rfl, rfl, -, -⟩ := DaemonEvent.found.inj heq
      obtain ⟨c, hc, -, hwrite⟩ := Endpoint.satisfies_iff.mp hruns
      obtain ⟨c', hc', hwrite'⟩ := Endpoint.satisfies_iff.mp hended
      obtain rfl := Endpoint.connection.inj (hc.symm.trans hc')
      exact hwrite hwrite'
  · intro hnone m message' hlookup
    refine ⟨exists_lookup_event hlookup, fun e htask he => ?_⟩
    rcases lookup_event he htask hlookup with rfl | ⟨k, q, rfl, hhands⟩
    · exact .inl rfl
    · obtain ⟨c, hc, hid⟩ := (hw.owners k).registered x q hhands.2
      refine .inr ⟨k, q, rfl, Endpoint.satisfies_iff.mpr ⟨c, hc, hid, fun hwrite => ?_⟩⟩
      exact hnone k q ⟨hhands, Endpoint.satisfies_iff.mpr ⟨c, hc, hwrite⟩⟩

end Daemon

/-- After a run, a call of `send_frame(x)` is handed a connection to `x` whose write task runs or
goes on to open one, as do the calls that wait already, if and only if each end of the write task
of a stored connection of `x` was followed by its replacement or by the close of its socket. -/
theorem ended_connections_unused_iff (r : Run (daemonMachine tls pack)) (x : Identifier)
    (srcPort dstPort : UInt16) (data : Bytes) :
    (r.final.next pack (.sendFrame x srcPort dstPort data)).HandsOutRunning pack x ↔
      ∀ before y after, r.transitions = before ++ y :: after → ∀ k q,
        y.source.endsStored k q x y.label → ∃ z ∈ after, z.source.replaces k q x z.label := by
  have hw := Daemon.WellFormed.of_reachable r.reachable
  have hsend : r.final.enabled pack (.sendFrame x srcPort dstPort data) := ⟨trivial, trivial⟩
  have hphase : ((r.final.next pack (.sendFrame x srcPort dstPort data)).tasks
      r.final.nextTask).phase = .lookup x (some (.data srcPort dstPort data)) := by
    simp [Daemon.next, Daemon.effect, Daemon.spawn, Daemon.setTask]
  have hstored : ∀ k q, (r.final.next pack (.sendFrame x srcPort dstPort data)).StoresEnded k q x ↔
      r.final.StoresEnded k q x := fun _ _ => Iff.rfl
  rw [Daemon.handsOutRunning_iff (hw.next hsend) hphase]
  simp only [hstored, Daemon.storesEnded_iff]
  constructor
  · intro hnone before y after htrace k q hends
    by_contra hkept
    refine hnone k q ⟨before, y, after, htrace, hends, fun z hz hr => hkept ⟨z, hz, hr⟩⟩
  · rintro hreplaced k q ⟨before, y, after, htrace, hends, hkept⟩
    obtain ⟨z, hz, hr⟩ := hreplaced before y after htrace k q hends
    exact hkept z hz hr

section TimedOut

/-- The handshake with a host is accepted and its connection registered; then the host stays
silent, the read task times out and the write task ends. -/
def timedOutEvents : List (DaemonEvent keyTls) :=
  [.openSocket localAddr, .socket 0 (.reader (.datagram [22] (.v6 hostAddr))),
    .socket 0 (.reader (.send ⟨0, .v6 hostAddr, [22]⟩ 0 true)),
    .socket 0 (.reader (.insert (.v6 hostAddr) 0 true)), .socket 0 (.reader (.offer 0)),
    .socket 0 (.accept (.take 0)), .socket 0 (.accept (.await 0)),
    .socket 0 (.accept (.read 0 ⟨0, .v6 hostAddr, [22]⟩)),
    .socket 0 (.accepted 0 (keySession [1])), .socket 0 (.register 0),
    .socket 0 (.connection 0 .timeout), .socket 0 (.connection 0 .writeClosed)]

def timedOutNetwork : NetworkState := ⟨digestTwo, .new, [], 65041⟩

theorem ended_connection_found : ∃ r : Run (daemonMachine keyTls (.ofTable [])),
    ∃ y ∈ r.transitions, y.label = .found 2 0 0 digestOne (some (.data 5 6 [])) ∧
      y.source.StoresEnded 0 0 digestOne := by
  obtain ⟨r, _, y, hy, hlabel, hp, _⟩ := exec_visits (M := daemonMachine keyTls (.ofTable []))
    ⟨timedOutNetwork, rfl⟩ (timedOutEvents ++ [.sendFrame digestOne 5 6 []])
    (.found 2 0 0 digestOne (some (.data 5 6 [])))
    (p := fun d => decide (d.StoresEnded 0 0 digestOne)) (q := fun _ => true) (by decide +kernel)
  exact ⟨r, y, hy, hlabel, of_decide_eq_true hp⟩

end TimedOut

end Uip
