import Uip.TransportSocketInvariant

/-! Whether the identifier of a connection is that of its peer. The accept task takes it from the
certificate of the session; `open_connection` takes the one it was called with, and never looks
at the certificate that the party at the address has shown. -/
namespace Uip.Transport
open TransitionSystem

variable {tls : Tls}

namespace Socket

variable {s : Socket tls} {e : SocketEvent tls}

/-- Every connection bears the identifier of its session's certificate, and every tuple of the
channel was sent by a party that holds a key with the digest it names. -/
structure Authentic (s : Socket tls) : Prop where
  connections : ∀ q c, s.endpoints q = .connection c →
    idFromConnection c.session = some c.remoteId
  delivered : ∀ party d, (party, d) ∈ s.delivered →
    ∃ der, tls.holds party der ∧ tls.sha256 der = d.hostId

/-- Where `open_connection` completes a handshake, the party at the address has shown the
certificate of the identifier that was asked for. -/
def opensAuthentic (s : Socket tls) : SocketEvent tls → Prop
  | .opened q session => ∀ id address, s.endpoints q = .opening id address →
      idFromConnection session = some id
  | _ => True

theorem Authentic.new : (new tls).Authentic where
  connections q c hc := by cases hc
  delivered party d hd := by cases hd

theorem Authentic.next (h : s.Authentic) (he : s.enabled e) (hg : s.opensAuthentic e) :
    (s.next e).Authentic := by
  refine ⟨fun q d hd => ?_, fun party d hd => ?_⟩
  · rcases connection_of_next he hd with ⟨c, hc, hkeeps⟩ | ⟨session, id, _, hid, rfl⟩ |
      ⟨session, id, address, rfl, hopen, rfl⟩
    · rw [hkeeps.session, hkeeps.remoteId]
      exact h.connections q c hc
    · exact hid
    · exact hg id address hopen
  · rcases next_channel he with ⟨hsame, _⟩ | ⟨q, c, d', _, hc, hdel, hnew, _⟩
    · exact h.delivered party d (hsame ▸ hd)
    · rw [hnew] at hd
      rcases List.mem_append.mp hd with hold | hlast
      · exact h.delivered party d hold
      · obtain ⟨rfl, rfl⟩ := Prod.mk.inj (List.mem_singleton.mp hlast)
        rw [delivery_hostId hdel]
        exact holds_of_idFromConnection (h.connections q c hc)

/-- The step that ends a handshake of `open_connection` is the only one that can fail. -/
theorem opensAuthentic_of_next (ht : (s.next e).Authentic) : s.opensAuthentic e := by
  cases e with
  | opened q session =>
    intro id address hopen
    refine ht.connections q (.fromTlsStream session id) ?_
    simp [Socket.next, effect, Socket.opened, hopen, updateEndpoint]
  | _ => trivial

end Socket

/-- All connections and all delivered frames of a run are authentic if and only if each completed
`open_connection` happened to be answered by the peer that it asked for. -/
theorem authentic_iff (r : Run (socketMachine tls)) :
    (∀ x ∈ r.transitions, x.target.Authentic) ↔
      ∀ x ∈ r.transitions, x.source.opensAuthentic x.label := by
  apply r.guarded_iff (I := fun _ => True)
  · exact fun s hs => hs ▸ ⟨trivial, .new⟩
  · exact fun _ _ _ _ => trivial
  · exact fun s e _ hauth he => ⟨Socket.opensAuthentic_of_next, hauth.next he⟩

section Impersonated

def openedAddr : SocketAddrV6 := ⟨5, 65041, 0, 0⟩

/-- The owner of the key 1 is asked for, the owner of the key 2 answers and sends a frame. -/
def impersonatingEvents : List (SocketEvent keyTls) :=
  [.openConnection digestOne openedAddr, .reader (.datagram [22] (.v6 openedAddr)),
    .reader (.send ⟨0, .v6 openedAddr, [22]⟩ 0 false), .reader (.insert (.v6 openedAddr) 0 false),
    .openRead 0 ⟨0, .v6 openedAddr, [22]⟩, .opened 0 (keySession [2]),
    .reader (.datagram [23] (.v6 openedAddr)), .reader (.send ⟨1, .v6 openedAddr, [23]⟩ 0 false),
    .reader (.insert (.v6 openedAddr) 0 false),
    .receive 0 ⟨1, .v6 openedAddr, [23]⟩ [.data 0 0 [7]], .connection 0 (.frame (.data 0 0 [7])),
    .deliver 0]

theorem impersonated : ∃ s, Reachable (socketMachine keyTls) s ∧ ¬ s.Authentic ∧
    s.deliverFrame.items = [⟨digestOne, 0, 0, [7]⟩] := by
  obtain ⟨s, hs, hp⟩ := exec_reachable (M := socketMachine keyTls) rfl impersonatingEvents
    (p := fun s => decide (((s.endpoints 0).satisfies fun c => c.remoteId = digestOne ∧
      idFromConnection c.session = some digestTwo) ∧
      s.deliverFrame.items = [⟨digestOne, 0, 0, [7]⟩])) (by decide +kernel)
  obtain ⟨hconn, hitems⟩ := of_decide_eq_true hp
  refine ⟨s, hs, fun hauth => ?_, hitems⟩
  cases hc : s.endpoints 0 with
  | connection c =>
    rw [hc] at hconn
    have hid := hauth.connections 0 c hc
    rw [hconn.1, hconn.2] at hid
    exact absurd (Option.some.inj hid) (by decide)
  | none | opening => simp [hc, Endpoint.satisfies] at hconn

end Impersonated

end Uip.Transport
