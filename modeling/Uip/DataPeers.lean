import Uip.Containers

/-! Identifiers, socket addresses, peer records and the peer information base. -/
namespace Uip

abbrev Bytes := List UInt8

/-- The SHA-256 digest of a public key. -/
structure Identifier where
  bytes : Vector UInt8 32
  deriving DecidableEq

def hexDigit (n : UInt8) : UInt8 := if n < 10 then n + 48 else n + 55

/-- The text form of an identifier: two upper-case hexadecimal digits for each byte. -/
def Identifier.display (id : Identifier) : Bytes :=
  id.bytes.toList.flatMap fun byte => [hexDigit (byte / 16), hexDigit (byte % 16)]

structure SocketAddrV6 where
  ip : BitVec 128
  port : UInt16
  flowinfo : UInt32
  scopeId : UInt32
  deriving DecidableEq

inductive SocketAddr
  | v4 (ip : BitVec 32) (port : UInt16)
  | v6 (address : SocketAddrV6)
  deriving DecidableEq

structure Peer where
  id : Identifier
  addresses : List SocketAddrV6
  relays : List Identifier
  deriving DecidableEq

structure PeerInformationBase where
  peers : HashMap Identifier Peer

namespace PeerInformationBase

def new : PeerInformationBase := ⟨∅⟩

def addPeer (pib : PeerInformationBase) (id : Identifier) (peer : Peer) : PeerInformationBase :=
  ⟨pib.peers.insert id peer⟩

def getPeer (pib : PeerInformationBase) (id : Identifier) : Option Peer := pib.peers.lookup id

def lookupPeerAddress (pib : PeerInformationBase) (id : Identifier) : Option SocketAddrV6 :=
  (pib.getPeer id).bind fun peer => peer.addresses.head?

def addPeerAddress (pib : PeerInformationBase) (id : Identifier) (addr : SocketAddrV6) :
    PeerInformationBase :=
  let peer := (pib.getPeer id).getD ⟨id, [], []⟩
  ⟨pib.peers.insert id { peer with addresses := peer.addresses ++ [addr] }⟩

@[simp] theorem getPeer_addPeer (pib : PeerInformationBase) (id other : Identifier)
    (peer : Peer) : (pib.addPeer id peer).getPeer other =
      if other = id then some peer else pib.getPeer other :=
  HashMap.lookup_insert_if _ _ _ _

/-- Every record is stored under the identifier it carries. -/
def OwnRecords (pib : PeerInformationBase) : Prop :=
  ∀ id peer, pib.getPeer id = some peer → peer.id = id

theorem OwnRecords.addPeer {pib : PeerInformationBase} (h : pib.OwnRecords) (peer : Peer) :
    (pib.addPeer peer.id peer).OwnRecords := by
  intro id p hp
  rw [getPeer_addPeer] at hp
  split_ifs at hp with he
  · rw [he, Option.some.inj hp]
  · exact h id p hp

theorem OwnRecords.addPeerAddress {pib : PeerInformationBase} (h : pib.OwnRecords)
    (id : Identifier) (addr : SocketAddrV6) : (pib.addPeerAddress id addr).OwnRecords := by
  intro other p hp
  have hl := HashMap.lookup_insert_if pib.peers id other
    { (pib.getPeer id).getD ⟨id, [], []⟩ with
      addresses := ((pib.getPeer id).getD ⟨id, [], []⟩).addresses ++ [addr] }
  have hp' := hl.symm.trans hp
  split_ifs at hp' with he
  · subst he
    rw [← Option.some.inj hp']
    cases hg : pib.getPeer other with
    | none => rfl
    | some peer => exact h other peer hg
  · exact h other p hp'

end PeerInformationBase

end Uip
