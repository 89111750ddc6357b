import Uip.DaemonInvariant

/-! Whether a connection that was opened is found again. The accept task registers the
connections it makes, `open_connection` only returns the one it made: the connections map knows
an opened connection's peer exactly if that peer has been accepted on the same socket. -/
namespace Uip
open TransitionSystem Transport

variable {tls : Tls} {pack : MessagePack}

namespace Transport.Socket

variable {s : Socket tls} {e : SocketEvent tls}

/-- A live connection that a call of `open_connection(x, ..)` has returned. -/
def Opened (s : Socket tls) (q : ℕ) (x : Identifier) : Prop :=
  ∃ c, s.endpoints q = .connection c ∧ c.remoteId = x ∧ c.alive ∧
    (s.io.queues q).origin = .connect

/-- `get_connection(x)` returns a connection to `x`. -/
def Returns (s : Socket tls) (x : Identifier) : Prop :=
  ∃ q c, s.getConnection x = some q ∧ s.endpoints q = .connection c ∧ c.remoteId = x

theorem Owners.returns_iff (h : s.Owners) {x : Identifier} :
    s.Returns x ↔ s.getConnection x ≠ none := by
  constructor
  · rintro ⟨q, c, hq, _⟩
    simp [hq]
  · intro hx
    obtain ⟨q, hq⟩ := Option.ne_none_iff_exists'.mp hx
    obtain ⟨c, hc, hid⟩ := h.registered x q hq
    exact ⟨q, c, hq, hc, hid⟩

/-- A live opened connection was one before the step, or its handshake has just ended. -/
theorem Owners.opened_of_next (h : s.Owners) (he : s.enabled e) {q : ℕ} {x : Identifier}
    (hq : (s.next e).Opened q x) : s.Opened q x ∨
      ∃ session address, e = .opened q session ∧ s.endpoints q = .opening x address := by
  obtain ⟨d, hd, hx, halive, horigin⟩ := hq
  rcases connection_of_next he hd with ⟨c, hc, hkeeps⟩ | ⟨session, id, rfl, _, _⟩ |
    ⟨session, id, address, rfl, hopen, rfl⟩
  · have hlt := h.lt (q := q) (by simp [hc])
    rw [next_origin s e hlt] at horigin
    exact .inl ⟨c, hc, hkeeps.remoteId.symm.trans hx, hkeeps.alive halive, horigin⟩
  · have hown := enabled_accepted he
    rw [next_origin s _ (h.acceptor.owned q hown).lt] at horigin
    exact absurd (horigin.symm.trans (h.acceptor.origin q hown)) (by simp)
  · exact .inr ⟨session, address, rfl, by rw [hopen, ← hx]; rfl⟩

theorem Owners.opened_next (h : s.Owners) {q : ℕ} {x : Identifier} {session : Session tls}
    {address : SocketAddrV6} (hq : s.endpoints q = .opening x address) :
    (s.next (.opened q session)).Opened q x := by
  have hopening : (s.endpoints q).isOpening = true := by rw [hq]; rfl
  refine ⟨.fromTlsStream session x, ?_, rfl, ⟨by simp [Connection.fromTlsStream],
    by simp [Connection.fromTlsStream]⟩, h.opening q hopening⟩
  simp [Socket.next, effect, Socket.opened, hq, updateEndpoint]

/-- The connections map forgets a peer only when the socket is closed. -/
theorem getConnection_next (he : s.enabled e) (hclose : e ≠ .close) {x : Identifier}
    (hx : s.getConnection x ≠ none) : (s.next e).getConnection x ≠ none := by
  unfold getConnection at hx ⊢
  rcases next_connections he x with hs | ⟨q, c, _, _, _, hs⟩ | ⟨rfl, _⟩
  · rwa [hs]
  · simp [hs]
  · exact absurd rfl hclose

theorem getConnection_opened (s : Socket tls) (q : ℕ) (session : Session tls) (x : Identifier) :
    (s.next (.opened q session)).getConnection x = s.getConnection x := by
  simp only [getConnection, Socket.next, effect, Socket.opened]
  split <;> rfl

end Transport.Socket

namespace Daemon

variable {d : Daemon tls} {e : DaemonEvent tls}

/-- Every live opened connection of an open socket is found by `get_connection`. -/
def ReusesOpened (d : Daemon tls) : Prop :=
  ∀ k ∈ d.openSockets, ∀ q x, (d.table k).Opened q x → (d.table k).Returns x

/-- Where a handshake is started because `get_connection` found nothing, no open socket that was
asked has a live opened connection to the host. -/
def startsAfresh (d : Daemon tls) : DaemonEvent tls → Prop
  | .missing _ host _ => ∀ k ∈ d.openSockets, ∀ q, ¬ (d.table k).Opened q host
  | .relayOpen _ k relay _ _ => k ∈ d.openSockets → ∀ q, ¬ (d.table k).Opened q relay
  | _ => True

/-- Where an `open_connection` on an open socket succeeds, the accept task of the socket has
registered a connection of the same host already. -/
def opensRegistered (d : Daemon tls) : DaemonEvent tls → Prop
  | .opened _ k q _ _ => k ∈ d.openSockets → ∀ x address,
      (d.table k).endpoints q = .opening x address → (d.table k).getConnection x ≠ none
  | _ => True

theorem ReusesOpened.startsAfresh (h : d.ReusesOpened) (hw : d.WellFormed)
    (he : d.enabled pack e) : d.startsAfresh e := by
  cases e with
  | missing n host message =>
    intro k hk q hq
    exact (hw.owners k).returns_iff.mp (h k hk q host hq) (he.1.2 k hk)
  | relayOpen n k relay rest address =>
    intro hk q hq
    exact (hw.owners k).returns_iff.mp (h k hk q relay hq) he.1.2.1
  | _ => trivial

theorem not_close (hw : d.WellFormed) (he : d.enabled pack e) {k : ℕ}
    (hk : k ∈ (d.next pack e).openSockets) :
    e.onSocket ≠ some (k, .close) := by
  intro hx
  obtain ⟨address, rfl⟩ := onSocket_close he hx
  obtain ⟨a, ha⟩ := mem_openSockets.mp hk
  rcases sockets_of_next ha with ⟨hl, hne⟩ | ⟨heq, _⟩
  · exact hne (by rw [hw.unique a address k hl he.1])
  · cases heq

theorem ReusesOpened.new (network : NetworkState) : (new tls network).ReusesOpened := by
  intro k hk
  obtain ⟨address, hl⟩ := mem_openSockets.mp hk
  simp [Daemon.new, AList.lookup_empty] at hl

theorem ReusesOpened.next (hw : d.WellFormed) (h : d.ReusesOpened) (he : d.enabled pack e)
    (hg : d.opensRegistered e) : (d.next pack e).ReusesOpened := by
  intro k hk q x hq
  rcases openSockets_of_next hk with hopen | hnew
  · obtain ⟨a, ha⟩ := mem_openSockets.mp hopen
    have hlt := hw.lt a k ha
    rcases next_table he k with hs | ⟨se, hx, hen, hs⟩ | ⟨_, _, rfl, _⟩
    · rw [hs] at hq ⊢
      exact h k hopen q x hq
    · have howners := hw.owners k
      have hnone : (d.table k).getConnection x ≠ none := by
        rw [hs] at hq
        rcases howners.opened_of_next hen hq with hq | ⟨session, address, rfl, hopening⟩
        · exact howners.returns_iff.mp (h k hopen q x hq)
        · obtain ⟨n, message, rfl⟩ := opened_event he hx
          exact hg hopen x address hopening
      have hclose : se ≠ .close := by
        rintro rfl
        exact not_close hw he hk hx
      rw [hs]
      exact (howners.next hen).returns_iff.mpr (Socket.getConnection_next hen hclose hnone)
    · exact absurd hlt (Nat.lt_irrefl _)
  · rw [hnew] at hq
    obtain ⟨c, hc, _⟩ := hq
    cases hc

theorem opensRegistered_of_next (hw : d.WellFormed) (ht : (d.next pack e).ReusesOpened) :
    d.opensRegistered e := by
  cases e with
  | opened n k q session message =>
    intro hk x address hopening
    have htable : (d.next pack (.opened n k q session message)).table k =
        (d.table k).next (.opened q session) := Function.update_self ..
    have hreturns := ht k hk q x (by rw [htable]; exact (hw.owners k).opened_next hopening)
    rw [htable] at hreturns
    obtain ⟨q', c, hq', _⟩ := hreturns
    rw [Socket.getConnection_opened] at hq'
    simp [hq']
  | _ => trivial

end Daemon

/-- The opened connections are reused throughout a run if and only if every `open_connection`
that succeeds on an open socket found its host registered by the accept task of that socket. -/
theorem reusesOpened_iff (r : Run (daemonMachine tls pack)) :
    (∀ x ∈ r.transitions, x.target.ReusesOpened ∧ x.source.startsAfresh x.label) ↔
      ∀ x ∈ r.transitions, x.source.opensRegistered x.label := by
  have hinit : ∀ d, (daemonMachine tls pack).init d → d.WellFormed ∧ d.ReusesOpened := by
    rintro d ⟨network, rfl⟩
    exact ⟨.new network, .new network⟩
  have hiff := r.guarded_iff (G := Daemon.opensRegistered) hinit (fun d e hd he => hd.next he)
    fun d e hd hreuse he => ⟨Daemon.opensRegistered_of_next hd, hreuse.next hd he⟩
  rw [← hiff]
  constructor
  · exact fun h x hx => (h x hx).1
  · intro h x hx
    have hsource := (r.path.sources (hinit _ r.starts).2 h).2 x hx
    have hstep := guarded_step.mp (r.path.step_of_mem hx)
    have hw : x.source.WellFormed := .of_reachable (r.reachable_of_mem hx).1
    exact ⟨h x hx, hsource.startsAfresh hw hstep.1⟩

section HandshakeRepeated

def hostNetwork : NetworkState :=
  ⟨digestTwo, PeerInformationBase.new.addPeerAddress digestOne hostAddr, [], 65041⟩

/-- `send_frame` opens a connection to the host and sends over it; then it is called again. -/
def sendingTwice : List (DaemonEvent keyTls) :=
  [.openSocket localAddr, .sendFrame digestOne 5 6 [], .missing 2 digestOne (some (.data 5 6 [])),
    .choose 2 0 digestOne hostAddr (some (.data 5 6 [])),
    .socket 0 (.reader (.datagram [22] (.v6 hostAddr))),
    .socket 0 (.reader (.send ⟨0, .v6 hostAddr, [22]⟩ 0 false)),
    .socket 0 (.reader (.insert (.v6 hostAddr) 0 false)),
    .socket 0 (.openRead 0 ⟨0, .v6 hostAddr, [22]⟩),
    .opened 2 0 0 (keySession [1]) (some (.data 5 6 [])), .send 2 0 0 (.data 5 6 []),
    .sendFrame digestOne 5 6 []]

theorem handshake_repeated : ∃ r : Run (daemonMachine keyTls (.ofTable [])),
    ∃ x ∈ r.transitions, ¬ x.source.ReusesOpened ∧ ¬ x.source.startsAfresh x.label := by
  obtain ⟨r, _, x, hx, hlabel, hp, _⟩ := exec_visits (M := daemonMachine keyTls (.ofTable []))
    ⟨hostNetwork, rfl⟩ sendingTwice (.missing 3 digestOne (some (.data 5 6 [])))
    (p := fun d => decide (0 ∈ d.openSockets ∧ (d.table 0).getConnection digestOne = none ∧
      ((d.table 0).endpoints 0).satisfies (fun c => c.remoteId = digestOne ∧
        c.readTask ≠ .ended ∧ c.writeTask ≠ .ended) ∧
      ((d.table 0).io.queues 0).origin = .connect))
    (q := fun _ => true) (by decide +kernel)
  obtain ⟨hopen, hnone, hconn, horigin⟩ := of_decide_eq_true hp
  obtain ⟨c, hc, hid, halive⟩ := Endpoint.satisfies_iff.mp hconn
  have hopened : (x.source.table 0).Opened 0 digestOne := ⟨c, hc, hid, halive, horigin⟩
  refine ⟨r, x, hx, fun hreuse => ?_, fun hafresh => ?_⟩
  · obtain ⟨q, _, hq, _⟩ := hreuse 0 hopen 0 digestOne hopened
    simp [hnone] at hq
  · rw [hlabel] at hafresh
    exact hafresh 0 hopen 0 hopened

end HandshakeRepeated

end Uip
