import Uip.TransportSocketStep

/-! The invariant of a transport socket: each connection of the demultiplexer has one owner, and
the connections map leads to connections that were accepted. -/
namespace Uip.Transport
open TransitionSystem

variable {tls : Tls}

namespace Socket

variable {s : Socket tls} {e : SocketEvent tls}

/-- Every tuple on the channel is recorded with the party that sent it. -/
theorem deliverFrame_delivered (h : Reachable (socketMachine tls) s) :
    ∀ d ∈ s.deliverFrame.items, ∃ party, (party, d) ∈ s.delivered := by
  apply h.guarded_induct (P := fun s => ∀ d ∈ s.deliverFrame.items,
    ∃ party, (party, d) ∈ s.delivered)
  · rintro s rfl
    simp [Socket.new]
  · intro s e hp he d hd
    rcases next_channel he with ⟨hsame, hsub⟩ | ⟨q, c, d', _, _, _, hdel, hitems⟩
    · rw [hsame]
      exact hp d (hsub.subset hd)
    · rw [hdel]
      rw [hitems] at hd
      rcases List.mem_append.mp hd with hold | hlast
      · obtain ⟨party, hparty⟩ := hp d hold
        exact ⟨party, List.mem_append_left _ hparty⟩
      · obtain rfl := List.mem_singleton.mp hlast
        exact ⟨c.session.peer, by simp⟩

/-- Each connection of the demultiplexer has one owner at most: the read task and the
new-connection channel, the accept task, or an endpoint. -/
structure Owners (s : Socket tls) : Prop where
  acceptor : s.acceptor.Owner
  fresh : ∀ q, s.io.nextQueue ≤ q → s.endpoints q = .none
  held : ∀ q, s.io.held q → s.endpoints q = .none
  accepting : ∀ q, s.acceptor.task.owns = some q → s.endpoints q = .none
  owned : ∀ q, (s.endpoints q).live → s.io.Owned q
  opening : ∀ q, (s.endpoints q).isOpening = true → (s.io.queues q).origin = .connect
  registering : ∀ q, s.acceptor.task = .registering q → ∃ c, s.endpoints q = .connection c
  registered : ∀ x q, s.connections.lookup x = some q →
    ∃ c, s.endpoints q = .connection c ∧ c.remoteId = x
  once : ∀ x q, s.connections.lookup x = some q → s.acceptor.task ≠ .registering q

theorem Owners.new : (new tls).Owners where
  acceptor := .new
  fresh := fun _ _ => rfl
  held := fun _ _ => rfl
  accepting := fun _ _ => rfl
  owned := fun _ h => h.elim
  opening := fun _ h => by cases h
  registering := by simp [Socket.new, Acceptor.new]
  registered := by simp [Socket.new, AList.lookup_empty]
  once := by simp [Socket.new, AList.lookup_empty]

/-- A connection goes on as the same connection. -/
theorem Owners.next_connection (h : s.Owners) (he : s.enabled e) {q : ℕ} {c : Connection tls}
    (hq : s.endpoints q = .connection c) :
    ∃ d, (s.next e).endpoints q = .connection d ∧ c.Continues d := by
  have hstep := next_endpoint he q
  generalize (s.next e).endpoints q = endpoint at hstep
  cases hstep with
  | same => exact ⟨c, hq, rfl, rfl, id, id, id⟩
  | accepted session id event known =>
    subst event
    cases (h.accepting q (enabled_accepted he)).symm.trans hq
  | opening id address event fresh => cases (h.fresh q (Nat.le_of_eq fresh.symm)).symm.trans hq
  | failed event opening => simp [hq, Endpoint.isOpening] at opening
  | opened session id address event opening => cases opening.symm.trans hq
  | continues c' d old keeps =>
    obtain rfl : c' = c := by simpa [hq] using old.symm
    exact ⟨d, rfl, keeps⟩

theorem Owners.next_held (h : s.Owners) (he : s.enabled e) {q : ℕ} (hq : (s.next e).io.held q) :
    (s.next e).endpoints q = .none := by
  have hheld := held_of_next he hq
  have haccept : ∀ session, e ≠ .accepted q session := by
    rintro session rfl
    have howned := h.acceptor.owned q (enabled_accepted he)
    rcases hheld with hold | ⟨rfl, _⟩
    · exact howned.handed hold
    · exact Nat.lt_irrefl _ howned.lt
  rcases hheld with hold | ⟨rfl, hopen⟩
  · refine endpoint_none_next he (h.held q hold) haccept fun id address _ heq => ?_
    exact Nat.ne_of_lt (h.acceptor.handover.lt hold) heq
  · exact endpoint_none_next he (h.fresh _ (Nat.le_refl _)) haccept
      fun id address heq _ => hopen id address heq

theorem Owners.next_fresh (h : s.Owners) (he : s.enabled e) {q : ℕ}
    (hq : (s.next e).io.nextQueue ≤ q) : (s.next e).endpoints q = .none := by
  have hle := s.nextQueue_le e
  refine endpoint_none_next he (h.fresh q (Nat.le_trans hle hq)) ?_ ?_
  · rintro session rfl
    have hlt : q < s.io.nextQueue := (h.acceptor.owned q (enabled_accepted he)).lt
    omega
  · rintro id address rfl rfl
    rw [openConnection_io, (s.io.connect_fresh (.v6 address)).1] at hq
    omega

theorem Owners.next_accepting (h : s.Owners) (he : s.enabled e) {q : ℕ}
    (hq : (s.next e).acceptor.task.owns = some q) : (s.next e).endpoints q = .none := by
  have haccept : ∀ session, e ≠ .accepted q session := by
    rintro session rfl
    cases hq
  have hown : s.acceptor.task.owns = some q ∨ s.io.held q := by
    rw [next_acceptor] at hq
    cases ha : e.onAcceptor with
    | none => exact .inl (by simpa [ha] using hq)
    | some a =>
      rw [ha] at hq
      have hen := enabled_acceptor he ha
      rcases Acceptor.next_task hen hq with ⟨hold, _⟩ | rfl
      · exact .inl hold
      · exact .inr (.inr (List.mem_of_mem_head? hen.2.2))
  have hlt : q < s.io.nextQueue := by
    rcases hown with ho | hh
    · exact (h.acceptor.owned q ho).lt
    · exact h.acceptor.handover.lt hh
  have hnone : s.endpoints q = .none := by
    rcases hown with ho | hh
    · exact h.accepting q ho
    · exact h.held q hh
  exact endpoint_none_next he hnone haccept fun id address _ => Nat.ne_of_lt hlt

theorem Owners.not_owns (h : s.Owners) {q : ℕ} (hq : (s.endpoints q).live) :
    s.acceptor.task.owns ≠ some q := by
  intro ho
  rw [h.accepting q ho] at hq
  exact hq

theorem Owners.next_owned (h : s.Owners) (he : s.enabled e) {q : ℕ}
    (hq : ((s.next e).endpoints q).live) : (s.next e).io.Owned q := by
  rcases live_of_next he hq with hlive | ⟨session, rfl⟩ | ⟨id, address, rfl, rfl⟩
  · have howned := h.owned q hlive
    apply io_next (P := fun io => io.Owned q) howned
    intro i hi
    apply howned.next (enabled_io he hi)
    rintro rfl
    rcases dropped_of_next he hi with ho | hdead
    · exact h.not_owns hlive ho
    · exact hdead hq
  · exact h.acceptor.owned q (enabled_accepted he)
  · exact h.acceptor.handover.owned_connect (.v6 address)

theorem Owners.lt (h : s.Owners) {q : ℕ} (hq : s.endpoints q ≠ .none) : q < s.io.nextQueue := by
  by_contra hle
  exact hq (h.fresh q (Nat.le_of_not_lt hle))

theorem Owners.next_opening (h : s.Owners) (he : s.enabled e) {q : ℕ}
    (hq : ((s.next e).endpoints q).isOpening = true) :
    ((s.next e).io.queues q).origin = .connect := by
  have hstep := next_endpoint he q
  generalize (s.next e).endpoints q = endpoint at hstep hq
  cases hstep with
  | same =>
    have hlt := h.lt (q := q) fun hn => by simp [hn, Endpoint.isOpening] at hq
    rw [next_origin s e hlt, h.opening q hq]
  | opening id address event fresh =>
    subst event fresh
    rw [openConnection_io, (s.io.connect_fresh (.v6 address)).2]
    rfl
  | accepted | failed | opened | continues => cases hq

theorem Owners.next_registering (h : s.Owners) (he : s.enabled e) {q : ℕ}
    (hq : (s.next e).acceptor.task = .registering q) :
    ∃ c, (s.next e).endpoints q = .connection c := by
  by_cases hold : s.acceptor.task = .registering q
  · obtain ⟨c, hc⟩ := h.registering q hold
    obtain ⟨d, hd, _⟩ := h.next_connection he hc
    exact ⟨d, hd⟩
  · cases e with
    | accepted p session =>
      obtain rfl := AcceptTask.registering.inj hq
      obtain ⟨id, hid⟩ := Option.isSome_iff_exists.mp he.1
      refine ⟨.fromTlsStream session id, ?_⟩
      simp [next, effect, Socket.accepted, hid, updateEndpoint]
    | accept a =>
      cases a with
      | io i => exact absurd hq hold
      | finish p => exact absurd he.1 (by simp [admits, AcceptEvent.handshaking])
      | _ => cases hq
    | register p => cases hq
    | _ => exact absurd hq hold

theorem Owners.next_registered (h : s.Owners) (he : s.enabled e) {x : Identifier} {q : ℕ}
    (hq : (s.next e).connections.lookup x = some q) :
    ∃ c, (s.next e).endpoints q = .connection c ∧ c.remoteId = x := by
  have hold : ∃ c, s.endpoints q = .connection c ∧ c.remoteId = x := by
    rcases next_connections he x with hl | ⟨p, c, rfl, hc, hx, hl⟩ | ⟨rfl, hl⟩
    · exact h.registered x q (hl ▸ hq)
    · obtain rfl : p = q := Option.some.inj (hl.symm.trans hq)
      exact ⟨c, hc, hx⟩
    · cases hl.symm.trans hq
  obtain ⟨c, hc, hx⟩ := hold
  obtain ⟨d, hd, hkeeps⟩ := h.next_connection he hc
  exact ⟨d, hd, hkeeps.remoteId.trans hx⟩

theorem updateConnection_keeps {p q : ℕ} {f : Connection tls → Connection tls}
    (hf : ∀ c, (f c).sink = c.sink ∧ (f c).writeTask = c.writeTask) {c d : Connection tls}
    (hc : s.endpoints q = .connection c)
    (hd : (s.updateConnection p f).endpoints q = .connection d) :
    d.sink = c.sink ∧ d.writeTask = c.writeTask := by
  by_cases hq : q = p
  · subst hq
    simp only [updateConnection, updateEndpoint, Function.update_self, hc, Endpoint.map,
      Endpoint.connection.injEq] at hd
    rw [← hd]
    exact hf c
  · simp only [updateConnection, updateEndpoint, Function.update_of_ne hq, hc,
      Endpoint.connection.injEq] at hd
    rw [hd]
    exact ⟨rfl, rfl⟩

theorem Owners.sink_next (h : s.Owners) (he : s.enabled e) {q : ℕ} {c d : Connection tls}
    (hc : s.endpoints q = .connection c) (hd : (s.next e).endpoints q = .connection d) :
    (d.sink = c.sink ∧ d.writeTask = c.writeTask) ∨
      ∃ ce, e = .connection q ce ∧ c.enabled ce ∧ d = c.next ce := by
  have hsame : (s.next e).endpoints q = s.endpoints q →
      d.sink = c.sink ∧ d.writeTask = c.writeTask := by
    intro hs
    rw [hs, hc] at hd
    rw [Endpoint.connection.inj hd]
    exact ⟨rfl, rfl⟩
  have hadmits := he.1
  rw [next_endpoints] at hd hsame
  cases e with
  | reader | accept | openRead | take | dropReceiver | close => exact .inl (hsame rfl)
  | accepted p session =>
    have hne : q ≠ p := by
      rintro rfl
      cases (h.accepting q (enabled_accepted he)).symm.trans hc
    refine .inl (hsame ?_)
    simp only [effect, Socket.accepted]
    split
    · exact Function.update_of_ne hne _ _
    · rfl
  | register p =>
    refine .inl (hsame ?_)
    simp only [effect, Socket.register]
    split <;> rfl
  | openConnection id address =>
    have hne : q ≠ s.io.nextQueue := Nat.ne_of_lt (h.lt (by simp [hc]))
    exact .inl (hsame (Function.update_of_ne hne _ _))
  | openFailed p =>
    have hne : q ≠ p := by
      rintro rfl
      simp [admits, hc, Endpoint.isOpening] at hadmits
    exact .inl (hsame (Function.update_of_ne hne _ _))
  | opened p session =>
    refine .inl (hsame ?_)
    simp only [effect, Socket.opened]
    split
    · next hopening =>
      have hne : q ≠ p := by
        rintro rfl
        cases hopening.symm.trans hc
      exact Function.update_of_ne hne _ _
    · rfl
  | receive | deliverClosed | release =>
    refine .inl (updateConnection_keeps ?_ hc hd)
    exact fun _ => ⟨rfl, rfl⟩
  | connection p ce =>
    by_cases hq : q = p
    · subst hq
      refine .inr ⟨ce, rfl, by simpa [admits, hc, Endpoint.satisfies] using hadmits, ?_⟩
      simpa [effect, updateConnection, updateEndpoint, hc, Endpoint.map, eq_comm] using hd
    · exact .inl (hsame (Function.update_of_ne hq _ _))
  | deliver p =>
    simp only [effect, Socket.deliver] at hd hsame
    split at hd
    · split at hd
      · refine .inl (updateConnection_keeps ?_ hc hd)
        exact fun _ => ⟨rfl, rfl⟩
      · exact .inl (by rw [Endpoint.connection.inj (hc.symm.trans hd)]; exact ⟨rfl, rfl⟩)
    · exact .inl (by rw [Endpoint.connection.inj (hc.symm.trans hd)]; exact ⟨rfl, rfl⟩)

theorem Owners.registering_of_next (h : s.Owners) (he : s.enabled e) {q : ℕ} {c : Connection tls}
    (hc : s.endpoints q = .connection c) (hq : (s.next e).acceptor.task = .registering q) :
    s.acceptor.task = .registering q ∧ e ≠ .register q := by
  cases e with
  | accepted p session =>
    obtain rfl := AcceptTask.registering.inj hq
    cases (h.accepting p (enabled_accepted he)).symm.trans hc
  | accept a =>
    cases a with
    | finish p => exact absurd he.1 (by simp [admits, AcceptEvent.handshaking])
    | io i => exact ⟨hq, by simp⟩
    | _ => cases hq
  | register p => cases hq
  | _ => exact ⟨hq, by simp⟩

theorem Owners.next_once (h : s.Owners) (he : s.enabled e) {x : Identifier} {q : ℕ}
    (hq : (s.next e).connections.lookup x = some q) :
    (s.next e).acceptor.task ≠ .registering q := by
  intro htask
  rcases next_connections he x with hl | ⟨p, c, rfl, hc, hx, hl⟩ | ⟨rfl, hl⟩
  · rw [hl] at hq
    obtain ⟨c, hc, _⟩ := h.registered x q hq
    exact h.once x q hq (h.registering_of_next he hc htask).1
  · cases htask
  · cases hl.symm.trans hq

theorem Owners.next (h : s.Owners) (he : s.enabled e) : (s.next e).Owners where
  acceptor := by
    rw [next_acceptor]
    cases ha : e.onAcceptor with
    | none => exact h.acceptor
    | some a => exact h.acceptor.next (enabled_acceptor he ha)
  fresh _ := h.next_fresh he
  held _ := h.next_held he
  accepting _ := h.next_accepting he
  owned _ := h.next_owned he
  opening _ := h.next_opening he
  registering _ := h.next_registering he
  registered _ _ := h.next_registered he
  once _ _ := h.next_once he

theorem Owners.of_reachable (h : Reachable (socketMachine tls) s) : s.Owners :=
  h.guarded_induct (fun _ hs => hs ▸ .new) fun _ _ hs he => hs.next he

theorem Owners.read_enabled (h : s.Owners) {q : ℕ} (hq : (s.endpoints q).live) {d : Io.Datagram}
    (hd : (s.io.queues q).datagrams.items.head? = some d) :
    s.acceptor.enabled (.io (.read q d)) := by
  have howned := h.owned q hq
  exact ⟨h.not_owns hq, howned.lt, howned.receiver, howned.handed, hd⟩

theorem Owners.drop_enabled (h : s.Owners) {q : ℕ} (hq : (s.endpoints q).live) :
    s.acceptor.enabled (.io (.drop q)) := by
  have howned := h.owned q hq
  exact ⟨h.not_owns hq, howned.lt, howned.receiver, howned.handed⟩

end Socket

/-- A transport socket makes its accept task and its demultiplexer take steps of their models. -/
theorem socketMachine_refines : Refines (socketMachine tls) acceptMachine Socket.acceptor := by
  apply Refines.guarded_part SocketEvent.onAcceptor
  · intro s hs
    rw [show s = Socket.new tls from hs]
    rfl
  · exact Socket.next_acceptor
  · exact fun s e he a ha => Socket.enabled_acceptor he ha

end Uip.Transport
