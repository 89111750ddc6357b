import Uip.DaemonPanic
import Uip.TransportFraming

/-!
# Publishing a peer record

`rmp_serde` sees a message as its parts: an identifier is its text, and an address what its text
`[ip%scope]:port` tells. From the sender's record to the receiver's peer information base.
-/
namespace Uip
open StreamDecoder Transport

/-- What `Serialize` of `SocketAddrV6` hands on: the text of an address leaves out its flow info
only. -/
structure AddressParts where
  ip : BitVec 128
  scopeId : UInt32
  port : UInt16
  deriving DecidableEq

structure PeerParts where
  id : Text
  addresses : List AddressParts
  relays : List Text
  deriving DecidableEq

inductive MessageParts
  | peerInfo (peer : PeerParts)
  | peerInfoRequest (id : Text)
  | invalid (bytes : Bytes)
  deriving DecidableEq

def SocketAddrV6.parts (a : SocketAddrV6) : AddressParts := ⟨a.ip, a.scopeId, a.port⟩

def AddressParts.read (a : AddressParts) : SocketAddrV6 := ⟨a.ip, a.port, 0, a.scopeId⟩

def Peer.parts (peer : Peer) : PeerParts :=
  ⟨peer.id.text, peer.addresses.map SocketAddrV6.parts, peer.relays.map Identifier.text⟩

def Message.parts : Message → MessageParts
  | .peerInfo info => .peerInfo info.peer.parts
  | .peerInfoRequest id => .peerInfoRequest id.text
  | .invalid bytes => .invalid bytes

def Reader.identifiers {α : Type} : List Text → (List Identifier → Reader α) → Reader α
  | [], next => next []
  | string :: strings, next =>
    .identifier string fun id => identifiers strings fun ids => next (id :: ids)

def MessageParts.read : MessageParts → Reader Message
  | .peerInfo peer =>
    .identifier peer.id fun id => .identifiers peer.relays fun relays =>
      .value (.peerInfo ⟨⟨id, peer.addresses.map AddressParts.read, relays⟩⟩)
  | .peerInfoRequest id => .identifier id fun id => .value (.peerInfoRequest id)
  | .invalid bytes => .value (.invalid bytes)

structure MessageSerde where
  serialize : MessageParts → Option Bytes
  deserialize : Bytes → Reader Message

namespace MessageSerde

variable {rmp : MessageSerde}

/-- Reading inverts writing on the parts. -/
def Inverts (rmp : MessageSerde) : Prop :=
  ∀ parts bytes, rmp.serialize parts = some bytes → rmp.deserialize bytes = parts.read

def pack (rmp : MessageSerde) : MessagePack :=
  .ofReader (fun message => rmp.serialize message.parts) rmp.deserialize

end MessageSerde

section Elements

theorem Reader.run_identifiers {α : Type} (ids : List Identifier)
    (next : List Identifier → Reader α) :
    (Reader.identifiers (ids.map Identifier.text) next).run = (next ids).run := by
  induction ids generalizing next with
  | nil => rfl
  | cons id ids ih => rw [List.map_cons, identifiers, run_identifier_text, ih]

/-- An address that its text tells in full: the flow info is not written. -/
def SocketAddrV6.Plain (a : SocketAddrV6) : Prop := a.flowinfo = 0

theorem read_parts {a : SocketAddrV6} (h : a.Plain) : a.parts.read = a := by
  obtain ⟨ip, port, flowinfo, scopeId⟩ := a
  obtain rfl : flowinfo = 0 := h
  rfl

theorem map_read_parts {addresses : List SocketAddrV6} (h : ∀ a ∈ addresses, a.Plain) :
    (addresses.map SocketAddrV6.parts).map AddressParts.read = addresses := by
  induction addresses with
  | nil => rfl
  | cons a addresses ih =>
    rw [List.map_cons, List.map_cons, read_parts (h a List.mem_cons_self),
      ih fun b hb => h b (List.mem_cons_of_mem a hb)]

/-- A record comes back from its parts, however many addresses and relays it has. -/
theorem run_read_peerInfo {peer : Peer} (h : ∀ a ∈ peer.addresses, a.Plain) :
    (Message.peerInfo ⟨peer⟩).parts.read.run = .value (.peerInfo ⟨peer⟩) := by
  rw [Message.parts, Peer.parts, MessageParts.read, Reader.run_identifier_text,
    Reader.run_identifiers, map_read_parts h, Reader.run]

variable {rmp : MessageSerde}

theorem deserialize_sendPeerInfo (hr : rmp.Inverts) {peer : Peer}
    (h : ∀ a ∈ peer.addresses, a.Plain) {bytes : Bytes}
    (hs : NetworkState.sendPeerInfo rmp.pack peer = some bytes) :
    rmp.pack.deserializeFromMsgpck bytes = some (.peerInfo ⟨peer⟩) := by
  have hparts : rmp.serialize (Message.peerInfo ⟨peer⟩).parts = some bytes := by
    simpa [NetworkState.sendPeerInfo, MessagePack.serializeToMsgpck, MessageSerde.pack,
      MessagePack.ofReader] using hs
  have hread : rmp.pack.deserialize bytes = .value (.peerInfo ⟨peer⟩) := by
    change (rmp.deserialize bytes).run = _
    rw [hr _ _ hparts, run_read_peerInfo h]
  rw [MessagePack.deserializeFromMsgpck, hread]

end Elements

section Frames

/-- A frame that fits its length field arrives whole, however its bytes are cut. -/
theorem Transport.Codec.feed_encoding {frame : Frame} (h : Codec.Bounded frame)
    {chunks : List Bytes} (hc : Codec.encode frame [] = .ok chunks.flatten) :
    feed Codec.decode chunks [] = ⟨[frame], .more, []⟩ := by
  have hsame := Codec.decode_incremental.feed_same (drain_more Codec.decode_nil) chunks
  rw [List.nil_append, Codec.eq_encoding_of_encode hc, Codec.drain_encoding h] at hsame
  obtain ⟨hframes, hstop, hrest⟩ := hsame
  rcases hf : feed Codec.decode chunks [] with ⟨frames, stop, rest⟩
  rw [hf] at hframes hstop hrest
  have hr : rest = [] := hrest hstop
  simp only at hframes hstop
  rw [hframes, hstop, hr]

end Frames

namespace Daemon

variable {tls : Tls} {pack : MessagePack} {d : Daemon tls} {n : ℕ} {delivery : Delivery}

theorem process_of_control (hp : (d.tasks n).phase = .delivering delivery)
    (hc : delivery.isControl) {network : NetworkState}
    (hn : d.network.processControlMessage pack delivery.hostId delivery.data =
      some (network, none)) :
    (∀ other, ¬ d.enabled pack (.upstream n other)) ∧
    (∀ k other, ¬ d.enabled pack (.panicked n k other)) ∧
    d.enabled pack (.process n delivery) ∧
    (d.next pack (.process n delivery)).network = network := by
  refine ⟨fun other he => ?_, fun k other he => ?_, ⟨⟨hp, hc, by simp [hn]⟩, trivial⟩, ?_⟩
  · obtain rfl := Phase.delivering.inj (hp.symm.trans he.1.1)
    exact he.1.2 hc
  · obtain ⟨ht, -, hnone⟩ := he.1
    rw [ht] at hp
    obtain rfl := Phase.delivering.inj hp
    simp [hn] at hnone
  · simp [Daemon.next, Daemon.effect, processDelivery, hn]

end Daemon

/-- What a host sends about itself replaces its record at the receiver, whatever else happens
between the steps on the way. -/
theorem peer_info_published (tls : Tls) {rmp : MessageSerde} (hr : rmp.Inverts) {peer : Peer}
    (haddr : ∀ a ∈ peer.addresses, a.Plain) {bytes : Bytes}
    (hs : NetworkState.sendPeerInfo rmp.pack peer = some bytes) (hlen : bytes.length ≤ 65535)
    {chunks : List Bytes} (hc : Codec.encode (.data 0 0 bytes) [] = .ok chunks.flatten) :
    feed Codec.decode chunks [] = ⟨[.data 0 0 bytes], .more, []⟩ ∧
    (∀ c : Connection tls, c.remoteId = peer.id → c.readTask = .reading →
      c.decoded = (feed Codec.decode chunks []).frames →
      c.enabled (.frame (.data 0 0 bytes)) ∧
        (c.next (.frame (.data 0 0 bytes))).delivery = some ⟨peer.id, 0, 0, bytes⟩) ∧
    (∀ (s : Socket tls) (q : ℕ) (c : Connection tls), s.endpoints q = .connection c →
      c.delivery = some ⟨peer.id, 0, 0, bytes⟩ → s.enabled (.deliver q) →
      (s.next (.deliver q)).deliverFrame.items =
        s.deliverFrame.items ++ [⟨peer.id, 0, 0, bytes⟩]) ∧
    (∀ (d : Daemon tls) (n k : ℕ),
      ((d.next rmp.pack (.take n k ⟨peer.id, 0, 0, bytes⟩)).tasks n).phase =
        .delivering ⟨peer.id, 0, 0, bytes⟩) ∧
    rmp.pack.deserializeFromMsgpck bytes = some (.peerInfo ⟨peer⟩) ∧
    ∀ (d : Daemon tls) (n : ℕ), (d.tasks n).phase = .delivering ⟨peer.id, 0, 0, bytes⟩ →
      (∀ other, ¬ d.enabled rmp.pack (.upstream n other)) ∧
      (∀ k other, ¬ d.enabled rmp.pack (.panicked n k other)) ∧
      d.enabled rmp.pack (.process n ⟨peer.id, 0, 0, bytes⟩) ∧
      (d.next rmp.pack (.process n ⟨peer.id, 0, 0, bytes⟩)).network =
        { d.network with pib := d.network.pib.addPeer peer.id peer } := by
  have hbounded : Codec.Bounded (.data 0 0 bytes) := hlen
  have hfeed := Codec.feed_encoding hbounded hc
  have hmessage := deserialize_sendPeerInfo hr haddr hs
  refine ⟨hfeed, fun c hid hread hdecoded => ?_, fun s q c hq hd he => ?_, fun d n k => ?_,
    hmessage, fun d n hp => ?_⟩
  · rw [hfeed] at hdecoded
    refine ⟨⟨hread, by rw [hdecoded]; rfl⟩, ?_⟩
    simp only [Connection.next, Connection.handling, Connection.delivery, hid]
  · obtain ⟨c', δ, hc', hδ, -, hitems⟩ := Socket.next_deliver he
    obtain rfl := Endpoint.connection.inj (hq.symm.trans hc')
    obtain rfl := Option.some.inj (hd.symm.trans hδ)
    exact hitems
  · simp [Daemon.next, Daemon.effect, Daemon.setPhase, Daemon.setTask]
  · apply Daemon.process_of_control hp ⟨rfl, rfl⟩
    simp [NetworkState.processControlMessage, hmessage]

section Sample

def MessageSerde.ofTable (table : List (Message × Bytes)) : MessageSerde where
  serialize parts := (table.find? fun entry => entry.1.parts = parts).map Prod.snd
  deserialize bytes :=
    match table.find? fun entry => entry.2 = bytes with
    | some entry => entry.1.parts.read
    | none => .error

theorem MessageSerde.ofTable_inverts {table : List (Message × Bytes)}
    (h : (table.map Prod.snd).Nodup) : (MessageSerde.ofTable table).Inverts := by
  intro parts bytes hs
  obtain ⟨⟨m, b⟩, hf, rfl⟩ := Option.map_eq_some_iff.mp hs
  have hm : m.parts = parts := by simpa using List.find?_some hf
  simp [MessageSerde.ofTable, find?_bytes h (List.mem_of_find?_eq_some hf), hm]

/-- A host with one address and one relay. -/
def samplePeer : Peer := ⟨digestOne, [hostAddr], [digestTwo]⟩

def samplePeerInfo : Message × Bytes := writePeer samplePeer

def samplePeerSerde : MessageSerde := .ofTable [samplePeerInfo]

theorem samplePeerSerde_inverts : samplePeerSerde.Inverts :=
  MessageSerde.ofTable_inverts (List.nodup_singleton _)

def samplePieces : List Bytes :=
  [(Codec.encoding (.data 0 0 samplePeerInfo.2)).take 5,
    (Codec.encoding (.data 0 0 samplePeerInfo.2)).drop 5]

def sampleReceiver : Daemon keyTls :=
  { Daemon.new keyTls ⟨digestTwo, .new, [], 65041⟩ with
    tasks := fun _ => ⟨.deliver 0, .delivering ⟨digestOne, 0, 0, samplePeerInfo.2⟩⟩ }

theorem peer_info_published_sample :
    feed Codec.decode samplePieces [] = ⟨[.data 0 0 samplePeerInfo.2], .more, []⟩ ∧
    (sampleReceiver.next samplePeerSerde.pack
      (.process 0 ⟨digestOne, 0, 0, samplePeerInfo.2⟩)).network =
      ⟨digestTwo, PeerInformationBase.new.addPeer digestOne samplePeer, [], 65041⟩ := by
  have haddr : ∀ a ∈ samplePeer.addresses, a.Plain := by
    simp [samplePeer, hostAddr, SocketAddrV6.Plain]
  have hs : NetworkState.sendPeerInfo samplePeerSerde.pack samplePeer =
      some samplePeerInfo.2 := by decide +kernel
  have hlen : samplePeerInfo.2.length ≤ 65535 := by decide +kernel
  have hc : Codec.encode (.data 0 0 samplePeerInfo.2) [] = .ok samplePieces.flatten := by
    rw [Codec.encode_nil, samplePieces, List.flatten_cons, List.flatten_singleton,
      List.take_append_drop]
  have h := peer_info_published keyTls samplePeerSerde_inverts haddr hs hlen hc
  exact ⟨h.1, (h.2.2.2.2.2 sampleReceiver 0 rfl).2.2.2⟩

end Sample

end Uip
