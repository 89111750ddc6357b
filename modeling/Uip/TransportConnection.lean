import Uip.DataPeers

/-!
# Sessions and connections

A session is what a completed DTLS handshake leaves: the party at the other end, its
certificate if it sent one, and the proof it gave of holding the certificate's key. A connection
runs a read, a write and a ping task over a session and ends task by task.
-/
namespace Uip.Transport

/-- What the transport relies on OpenSSL for: which parties hold the private key of a public key
in DER form, and the SHA-256 digest. -/
structure Tls where
  Party : Type
  holds : Party → Bytes → Prop
  sha256 : Bytes → Identifier

/-- A certificate; its public key is `none` where OpenSSL fails to extract or encode it. -/
structure X509 where
  publicKeyDer : Option Bytes
  deriving DecidableEq

structure Session (tls : Tls) where
  peer : tls.Party
  peerCertificate : Option X509
  proven : ∀ x509 der, peerCertificate = some x509 → x509.publicKeyDer = some der →
    tls.holds peer der

variable {tls : Tls}

def fromX509Certificate (tls : Tls) (x509 : X509) : Option Identifier :=
  x509.publicKeyDer.map tls.sha256

def idFromConnection (session : Session tls) : Option Identifier :=
  session.peerCertificate.bind (fromX509Certificate tls)

/-- The peer of a session that yields an identifier holds a key with this digest. -/
theorem holds_of_idFromConnection {session : Session tls} {id : Identifier}
    (h : idFromConnection session = some id) :
    ∃ der, tls.holds session.peer der ∧ tls.sha256 der = id := by
  obtain ⟨x509, hx, hid⟩ := Option.bind_eq_some_iff.mp h
  obtain ⟨der, hder, rfl⟩ := Option.map_eq_some_iff.mp hid
  exact ⟨der, session.proven x509 der hx hder, rfl⟩

inductive Frame
  | ping
  | pong
  | data (srcPort dstPort : UInt16) (data : Bytes)
  deriving DecidableEq

inductive ReadTask
  | reading
  | sendingPong
  | sendingData (srcPort dstPort : UInt16) (data : Bytes)
  | ended
  deriving DecidableEq

inductive WriteTask
  | receiving
  | sending (frame : Frame)
  | ended
  deriving DecidableEq

inductive PingTask
  | waiting
  | sending
  | ended
  deriving DecidableEq

/-- `decoded` holds the frames that were decoded from the stream and not yet handled; `stream`
tells whether a task still holds its half of the stream. -/
structure Connection (tls : Tls) where
  remoteId : Identifier
  session : Session tls
  decoded : List Frame
  sink : BoundedQueue Frame 10
  readTask : ReadTask
  writeTask : WriteTask
  pingTask : PingTask
  stream : Bool

/-- The steps of the three tasks that concern only the connection, and `send` for the tasks that
send a frame over it. -/
inductive ConnectionEvent
  | frame (f : Frame)
  | pong
  | pongFailed
  | timeout
  | decodeError
  | endOfStream
  | takeFrame (f : Frame)
  | written (f : Frame)
  | writeError (f : Frame)
  | writeClosed
  | tick
  | ping
  | pingFailed
  | pingClosed
  | send (f : Frame)
  deriving DecidableEq

namespace Connection

def fromTlsStream (session : Session tls) (remoteId : Identifier) : Connection tls :=
  ⟨remoteId, session, [], .empty, .reading, .receiving, .waiting, true⟩

/-- A frame can be put into the sink now; a closed sink refuses it. -/
def accepts (c : Connection tls) : Prop := c.writeTask ≠ .ended ∧ c.sink.full = false

instance (c : Connection tls) : Decidable c.accepts := inferInstanceAs (Decidable (_ ∧ _))

/-- The write and the ping task see the close signal once the read task, which holds its only
sender, has ended. -/
def enabled (c : Connection tls) : ConnectionEvent → Prop
  | .frame f => c.readTask = .reading ∧ c.decoded.head? = some f
  | .pong => c.readTask = .sendingPong ∧ c.accepts
  | .pongFailed => c.readTask = .sendingPong ∧ c.writeTask = .ended
  | .timeout | .decodeError | .endOfStream => c.readTask = .reading ∧ c.decoded = []
  | .takeFrame f => c.writeTask = .receiving ∧ c.sink.items.head? = some f
  | .written f | .writeError f => c.writeTask = .sending f
  | .writeClosed => c.writeTask = .receiving ∧ c.readTask = .ended
  | .tick => c.pingTask = .waiting
  | .ping => c.pingTask = .sending ∧ c.accepts
  | .pingFailed => c.pingTask = .sending ∧ c.writeTask = .ended
  | .pingClosed => c.pingTask = .waiting ∧ c.readTask = .ended
  | .send _ => c.accepts

instance (c : Connection tls) (e : ConnectionEvent) : Decidable (c.enabled e) := by
  cases e <;> dsimp only [enabled] <;> infer_instance

def sendFrame (c : Connection tls) (f : Frame) : Connection tls :=
  { c with sink := (c.sink.push f).getD c.sink }

def handling : Frame → ReadTask
  | .ping => .sendingPong
  | .pong => .reading
  | .data srcPort dstPort data => .sendingData srcPort dstPort data

def endWriteTask (c : Connection tls) : Connection tls :=
  { c with writeTask := .ended, sink := .empty }

def next (c : Connection tls) : ConnectionEvent → Connection tls
  | .frame f => { c with decoded := c.decoded.tail, readTask := handling f }
  | .pong => { c.sendFrame .pong with readTask := .reading }
  | .pongFailed => { c with readTask := .reading }
  | .timeout | .decodeError | .endOfStream => { c with readTask := .ended }
  | .takeFrame f =>
    { c with sink := (c.sink.pop.map Prod.snd).getD c.sink, writeTask := .sending f }
  | .written _ => { c with writeTask := .receiving }
  | .writeError _ | .writeClosed => c.endWriteTask
  | .tick => { c with pingTask := .sending }
  | .ping => { c.sendFrame .ping with pingTask := .waiting }
  | .pingFailed => { c with pingTask := .waiting }
  | .pingClosed => { c with pingTask := .ended }
  | .send f => c.sendFrame f

@[simp] theorem next_remoteId (c : Connection tls) (e : ConnectionEvent) :
    (c.next e).remoteId = c.remoteId := by
  cases e <;> rfl

@[simp] theorem next_session (c : Connection tls) (e : ConnectionEvent) :
    (c.next e).session = c.session := by
  cases e <;> rfl

@[simp] theorem next_stream (c : Connection tls) (e : ConnectionEvent) :
    (c.next e).stream = c.stream := by
  cases e <;> rfl

/-- A write task that has ended does not come back. -/
theorem next_writeTask_ended {c : Connection tls} {e : ConnectionEvent} (he : c.enabled e)
    (h : c.writeTask = .ended) : (c.next e).writeTask = .ended := by
  cases e with
  | takeFrame f => simp [enabled, h] at he
  | written f => simp [enabled, h] at he
  | writeError | writeClosed => rfl
  | _ => exact h

theorem writeTask_ended_of_next {c : Connection tls} {e : ConnectionEvent}
    (h : (c.next e).writeTask = .ended) :
    c.writeTask = .ended ∨ (∃ f, e = .writeError f) ∨ e = .writeClosed := by
  cases e with
  | takeFrame f => cases h
  | written f => cases h
  | writeError f => exact .inr (.inl ⟨f, rfl⟩)
  | writeClosed => exact .inr (.inr rfl)
  | _ => exact .inl h

theorem next_readTask_ended {c : Connection tls} {e : ConnectionEvent} (he : c.enabled e)
    (h : c.readTask = .ended) : (c.next e).readTask = .ended := by
  cases e with
  | frame f => simp [enabled, h] at he
  | pong | pongFailed => simp [enabled, h] at he
  | timeout | decodeError | endOfStream => rfl
  | _ => exact h

/-- Neither half of the stream is given up yet. -/
def alive (c : Connection tls) : Prop := c.readTask ≠ .ended ∧ c.writeTask ≠ .ended

end Connection

section Keys

def digestOne : Identifier := ⟨#v[0x4b, 0xf5, 0x12, 0x2f, 0x34, 0x45, 0x54, 0xc5, 0x3b, 0xde, 0x2e,
  0xbb, 0x8c, 0xd2, 0xb7, 0xe3, 0xd1, 0x60, 0x0a, 0xd6, 0x31, 0xc3, 0x85, 0xa5, 0xd7, 0xcc, 0xe2,
  0x3c, 0x77, 0x85, 0x45, 0x9a]⟩

def digestTwo : Identifier := ⟨#v[0xdb, 0xc1, 0xb4, 0xc9, 0x00, 0xff, 0xe4, 0x8d, 0x57, 0x5b, 0x5d,
  0xa5, 0xc6, 0x38, 0x04, 0x01, 0x25, 0xf6, 0x5d, 0xb0, 0xfe, 0x3e, 0x24, 0x49, 0x4b, 0x76, 0xea,
  0x98, 0x64, 0x57, 0xd9, 0x86]⟩

/-- Parties that are known by their only key; the digests are those of the keys 1 and 2. -/
def keyTls : Tls := ⟨Bytes, fun party der => der = party,
  fun der => if der = [1] then digestOne else digestTwo⟩

def keySession (key : Bytes) : Session keyTls := ⟨key, some ⟨some key⟩, fun x509 der hx hder => by
  obtain rfl := Option.some.inj hx
  exact (Option.some.inj hder).symm⟩

end Keys

end Uip.Transport
