import Uip.TransitionSystem
import Uip.ProtocolMessage

/-! The state of a daemon that control messages read and write, and their processing. The
sockets of the daemon are not part of it: a message may only ask for a reply, which the task
that processes it then sends over some connection. -/
namespace Uip

structure NetworkState where
  id : Identifier
  pib : PeerInformationBase
  relays : List Identifier
  port : UInt16

/-- `get_connection(host)` followed by `send_peer_info(peer)`. -/
structure Reply where
  host : Identifier
  peer : Peer
  deriving DecidableEq

/-- `get_connection(relay)` followed by `send_peer_info_request(id)`. -/
structure Request where
  relay : Identifier
  id : Identifier
  deriving DecidableEq

namespace NetworkState

variable (pack : MessagePack)

/-- `none` where decoding panics. -/
def processControlMessage (s : NetworkState) (hostId : Identifier) (data : Bytes) :
    Option (NetworkState × Option Reply) :=
  match pack.deserializeFromMsgpck data with
  | none => none
  | some (.peerInfo info) =>
    if hostId = info.peer.id then
      some ({ s with pib := s.pib.addPeer info.peer.id info.peer }, none)
    else some (s, none)
  | some (.peerInfoRequest identifier) =>
    match s.pib.getPeer identifier with
    | some peer => some (s, some ⟨hostId, peer⟩)
    | none => some (s, none)
  | some (.invalid _) => some (s, none)

def requestPeerInfo (s : NetworkState) (id : Identifier) : Option Request :=
  ((s.pib.getPeer id).bind fun peer => peer.relays.head?).map fun relay => ⟨relay, id⟩

def sendPeerInfo (peer : Peer) : Option Bytes :=
  pack.serializeToMsgpck (.peerInfo ⟨peer⟩) []

def sendPeerInfoRequest (id : Identifier) : Option Bytes :=
  pack.serializeToMsgpck (.peerInfoRequest id) []

/-- The record that `data`, received from `hostId`, writes for `id`: a peer information message
about `id` from `id` itself. -/
def ownRecord (id hostId : Identifier) (data : Bytes) : Option Peer :=
  match pack.deserializeFromMsgpck data with
  | some (.peerInfo info) => if hostId = id ∧ info.peer.id = id then some info.peer else none
  | _ => none

variable {pack}

theorem ownRecord_eq_some {id hostId : Identifier} {data : Bytes} {peer : Peer} :
    ownRecord pack id hostId data = some peer ↔
      hostId = id ∧ peer.id = id ∧
        pack.deserializeFromMsgpck data = some (.peerInfo ⟨peer⟩) := by
  unfold ownRecord
  cases hd : pack.deserializeFromMsgpck data with
  | none => simp
  | some message =>
    cases message with
    | peerInfo info =>
      obtain ⟨p⟩ := info
      simp only [Option.ite_none_right_eq_some, Option.some.injEq, Message.peerInfo.injEq,
        PeerInfo.mk.injEq]
      constructor
      · rintro ⟨⟨hh, hp⟩, rfl⟩
        exact ⟨hh, hp, rfl⟩
      · rintro ⟨hh, hp, rfl⟩
        exact ⟨⟨hh, hp⟩, rfl⟩
    | peerInfoRequest _ => simp
    | invalid _ => simp

/-- What processing one message does, whatever its kind. -/
theorem processControlMessage_spec {s t : NetworkState} {hostId : Identifier} {data : Bytes}
    {reply : Option Reply}
    (h : processControlMessage pack s hostId data = some (t, reply)) :
    (∃ peer, ownRecord pack peer.id hostId data = some peer ∧
      t = { s with pib := s.pib.addPeer peer.id peer } ∧ reply = none) ∨
    ((∀ id, ownRecord pack id hostId data = none) ∧ t = s ∧
      ∀ r, reply = some r → r.host = hostId ∧ ∃ id, s.pib.getPeer id = some r.peer ∧
        pack.deserializeFromMsgpck data = some (.peerInfoRequest id)) := by
  unfold processControlMessage at h
  cases hd : pack.deserializeFromMsgpck data with
  | none => simp [hd] at h
  | some message =>
    rw [hd] at h
    cases message with
    | peerInfo info =>
      obtain ⟨peer⟩ := info
      simp only at h
      split_ifs at h with hid
      · obtain ⟨rfl, rfl⟩ := Prod.mk.inj (Option.some.inj h)
        exact .inl ⟨peer, ownRecord_eq_some.mpr ⟨hid, rfl, hd⟩, rfl, rfl⟩
      · obtain ⟨rfl, rfl⟩ := Prod.mk.inj (Option.some.inj h)
        refine .inr ⟨fun id => ?_, rfl, by simp⟩
        simp only [ownRecord, hd, ite_eq_right_iff, reduceCtorEq, imp_false, not_and]
        rintro rfl rfl
        exact hid rfl
    | peerInfoRequest id =>
      have hn : ∀ x, ownRecord pack x hostId data = none := fun x => by simp [ownRecord, hd]
      cases hg : s.pib.getPeer id with
      | none =>
        simp only [hg, Option.some.injEq, Prod.mk.injEq] at h
        exact .inr ⟨hn, h.1.symm, by simp [← h.2]⟩
      | some peer =>
        simp only [hg, Option.some.injEq, Prod.mk.injEq] at h
        refine .inr ⟨hn, h.1.symm, fun r hr => ?_⟩
        obtain rfl := Option.some.inj (h.2.trans hr)
        exact ⟨rfl, id, hg, rfl⟩
    | invalid _ =>
      simp only [Option.some.injEq, Prod.mk.injEq] at h
      exact .inr ⟨fun id => by simp [ownRecord, hd], h.1.symm, by simp [← h.2]⟩

/-- The record of `id` after one message: the one the message writes, or the one before. -/
theorem processControlMessage_getPeer {s t : NetworkState} {hostId : Identifier} {data : Bytes}
    {reply : Option Reply} (h : processControlMessage pack s hostId data = some (t, reply))
    (id : Identifier) :
    t.pib.getPeer id = (ownRecord pack id hostId data).or (s.pib.getPeer id) := by
  rcases processControlMessage_spec h with ⟨peer, hp, rfl, _⟩ | ⟨hn, rfl, _⟩
  · obtain ⟨hh, _, hd⟩ := ownRecord_eq_some.mp hp
    rw [PeerInformationBase.getPeer_addPeer]
    by_cases he : id = peer.id
    · rw [if_pos he, he, hp, Option.some_or]
    · have hnone : ownRecord pack id hostId data = none := by
        rw [Option.eq_none_iff_forall_ne_some]
        intro p hp'
        exact he ((ownRecord_eq_some.mp hp').1.symm.trans hh)
      rw [if_neg he, hnone, Option.none_or]
  · rw [hn id, Option.none_or]

theorem processControlMessage_frame {s t : NetworkState} {hostId : Identifier} {data : Bytes}
    {reply : Option Reply} (h : processControlMessage pack s hostId data = some (t, reply)) :
    t.id = s.id ∧ t.relays = s.relays ∧ t.port = s.port := by
  rcases processControlMessage_spec h with ⟨_, _, rfl, _⟩ | ⟨_, rfl, _⟩ <;> exact ⟨rfl, rfl, rfl⟩

theorem processControlMessage_ownRecords {s t : NetworkState} {hostId : Identifier}
    {data : Bytes} {reply : Option Reply}
    (h : processControlMessage pack s hostId data = some (t, reply))
    (hs : s.pib.OwnRecords) : t.pib.OwnRecords := by
  rcases processControlMessage_spec h with ⟨peer, _, rfl, _⟩ | ⟨_, rfl, _⟩
  · exact hs.addPeer peer
  · exact hs

end NetworkState

end Uip
