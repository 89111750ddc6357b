import Uip.DataPeers

/-! Control messages and their MessagePack form. `rmp_serde` is a parameter: what it writes
for a message, and whether it reads a value, reports an error or panics while reading. -/
namespace Uip

structure PeerInfo where
  peer : Peer
  deriving DecidableEq

inductive Message
  | peerInfo (info : PeerInfo)
  | peerInfoRequest (id : Identifier)
  | invalid (bytes : Bytes)
  deriving DecidableEq

inductive Parsed (α : Type)
  | value (a : α)
  | error
  | panic

theorem find?_bytes {α : Type} {table : List (α × Bytes)} (h : (table.map Prod.snd).Nodup)
    {a : α} {bytes : Bytes} (hmem : (a, bytes) ∈ table) :
    (table.find? fun entry => entry.2 = bytes) = some (a, bytes) := by
  cases hb : table.find? fun entry => entry.2 = bytes with
  | none => simpa using List.find?_eq_none.mp hb (a, bytes) hmem
  | some entry =>
    have he : entry.2 = bytes := by simpa using List.find?_some hb
    rw [List.inj_on_of_nodup_map h (List.mem_of_find?_eq_some hb) hmem he]

structure MessagePack where
  serialize : Message → Option Bytes
  deserialize : Bytes → Parsed Message

namespace MessagePack

variable (pack : MessagePack)

def serializeToMsgpck (message : Message) (buffer : Bytes) : Option Bytes :=
  (pack.serialize message).map (buffer ++ ·)

/-- `none` stands for a panic; a reading error yields the bytes as an invalid message. -/
def deserializeFromMsgpck (buffer : Bytes) : Option Message :=
  match pack.deserialize buffer with
  | .value message => some message
  | .error => some (.invalid buffer)
  | .panic => none

/-- Reading gives back the message that was written. `rmp_serde` reads back the messages whose
addresses have no flow info. -/
def ReadsBack (message : Message) : Prop :=
  ∀ bytes, pack.serialize message = some bytes → pack.deserialize bytes = .value message

theorem ReadsBack.deserializeFromMsgpck {pack : MessagePack} {message : Message}
    (h : pack.ReadsBack message) {bytes : Bytes}
    (hs : pack.serializeToMsgpck message [] = some bytes) :
    pack.deserializeFromMsgpck bytes = some message := by
  have hb : pack.serialize message = some bytes := by
    simpa [serializeToMsgpck] using hs
  simp [MessagePack.deserializeFromMsgpck, h bytes hb]

/-- A codec that knows the listed messages and reports an error on any other bytes. -/
def ofTable (table : List (Message × Bytes)) : MessagePack where
  serialize message := (table.find? fun entry => entry.1 = message).map Prod.snd
  deserialize bytes :=
    match table.find? fun entry => entry.2 = bytes with
    | some entry => .value entry.1
    | none => .error

theorem ofTable_readsBack {table : List (Message × Bytes)} (h : (table.map Prod.snd).Nodup)
    (message : Message) : (ofTable table).ReadsBack message := by
  intro bytes hs
  obtain ⟨⟨m, b⟩, hf, rfl⟩ := Option.map_eq_some_iff.mp hs
  have hm : m = message := by simpa using List.find?_some hf
  simp [ofTable, find?_bytes h (List.mem_of_find?_eq_some hf), hm]

end MessagePack

/-- MessagePack form of an identifier: its text as a string of 64 bytes. -/
def writeIdentifier (id : Identifier) : Bytes := [0xd9, 0x40] ++ id.display

def writeRequest (id : Identifier) : Message × Bytes :=
  (.peerInfoRequest id, [0x81, 0x01] ++ writeIdentifier id)

/-- MessagePack form of a record without addresses and with fewer than 16 relays. -/
def writePeerInfo (id : Identifier) (relays : List Identifier) : Message × Bytes :=
  (.peerInfo ⟨id, [], relays⟩, [0x81, 0x00, 0x91, 0x93] ++ writeIdentifier id ++ [0x90] ++
    [0x90 + UInt8.ofNat relays.length] ++ relays.flatMap writeIdentifier)

/-- The text of the address `fd00::n` with port 65041, where `n` is a decimal digit. -/
def addressText (address : SocketAddrV6) : Bytes :=
  "[fd00::".toUTF8.toList ++ [hexDigit (UInt8.ofNat (address.ip.toNat % 16))] ++
    "]:65041".toUTF8.toList

/-- MessagePack form of such an address: its text as a string of 15 bytes. -/
def writeAddress (address : SocketAddrV6) : Bytes := [0xaf] ++ addressText address

def writePeer (peer : Peer) : Message × Bytes :=
  (.peerInfo ⟨peer⟩, [0x81, 0x00, 0x91, 0x93] ++ writeIdentifier peer.id ++
    [0x90 + UInt8.ofNat peer.addresses.length] ++ peer.addresses.flatMap writeAddress ++
    [0x90 + UInt8.ofNat peer.relays.length] ++ peer.relays.flatMap writeIdentifier)

end Uip
