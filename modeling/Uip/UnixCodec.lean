import Uip.BytesMut
import Uip.IdentifierText
import Uip.StreamDecoder

/-!
# The control socket codec

Frames are written and read by `rmp_serde`, which is a parameter. It sees a frame as its parts,
where an identifier is its text. A frame that was read is serialised once more to find its end.
-/
namespace Uip.Unix
open StreamDecoder

inductive ErrorCode
  | networkUnreachable
  | notBound
  deriving DecidableEq

inductive Frame
  | bind (port : UInt16)
  | data (hostId : Identifier) (port : UInt16) (data : Bytes)
  | error (code : ErrorCode)
  deriving DecidableEq

inductive Parts
  | bind (port : UInt16)
  | data (string : Text) (port : UInt16) (data : Bytes)
  | error (code : ErrorCode)
  deriving DecidableEq

def Frame.parts : Frame → Parts
  | .bind port => .bind port
  | .data hostId port bytes => .data hostId.text port bytes
  | .error code => .error code

def Parts.read : Parts → Reader Frame
  | .bind port => .value (.bind port)
  | .data string port bytes => .identifier string fun hostId => .value (.data hostId port bytes)
  | .error code => .value (.error code)

structure RmpSerde where
  serialize : Parts → Option Bytes
  fromSlice : Bytes → Reader Frame

def decodeError : Error := ⟨.other, "Error while decoding message"⟩

def encodeError : Error := ⟨.other, "Error while serializing frame"⟩

variable (rmp : RmpSerde)

/-- A frame that cannot be serialised again is a panic. -/
def decode (buf : Bytes) : Option (Except Error (Option Frame) × Bytes) :=
  if buf.length < 1 then some (.ok none, buf)
  else
    match (rmp.fromSlice buf).run with
    | .panic => none
    | .error => some (.error decodeError, buf)
    | .value frame =>
      (rmp.serialize frame.parts).bind fun tmp =>
        (buf.advance tmp.length).map fun buf => (.ok (some frame), buf)

def encode (msg : Frame) (buf : Bytes) : Except Error Bytes :=
  match rmp.serialize msg.parts with
  | none => .error encodeError
  | some tmp => .ok (buf ++ tmp)

def encodeAll (frames : List Frame) (buf : Bytes) : Except Error Bytes :=
  frames.foldlM (fun buf frame => encode rmp frame buf) buf

variable {rmp}

theorem run_read (frame : Frame) : frame.parts.read.run = .value frame := by
  cases frame with
  | bind port => rfl
  | error code => rfl
  | data hostId port data => exact Reader.run_identifier_text hostId _

theorem read_injective {p q : Parts} (h : p.read = q.read) : p = q := by
  cases p with
  | bind port =>
    cases q with
    | bind port' => simpa [Parts.read] using h
    | data => simp [Parts.read] at h
    | error => simp [Parts.read] at h
  | data string port data =>
    cases q with
    | bind => simp [Parts.read] at h
    | data string' port' data' =>
      simp only [Parts.read, Reader.identifier.injEq] at h
      obtain ⟨rfl, hnext⟩ := h
      have hvalue := congrFun hnext ⟨Vector.replicate 32 0⟩
      simp only [Reader.value.injEq, Frame.data.injEq, true_and] at hvalue
      rw [hvalue.1, hvalue.2]
    | error => simp [Parts.read] at h
  | error code =>
    cases q with
    | bind => simp [Parts.read] at h
    | data => simp [Parts.read] at h
    | error code' => simpa [Parts.read] using h

theorem decode_nil : decode rmp [] = some (.ok none, []) := rfl

theorem decode_ne_nil {buf : Bytes} (hne : buf ≠ []) :
    decode rmp buf = match (rmp.fromSlice buf).run with
      | .panic => none
      | .error => some (.error decodeError, buf)
      | .value frame =>
        (rmp.serialize frame.parts).bind fun tmp =>
          (buf.advance tmp.length).map fun buf => (.ok (some frame), buf) := by
  have hpos := List.length_pos_of_ne_nil hne
  rw [decode, if_neg (by omega)]

theorem decode_value {buf : Bytes} (hne : buf ≠ []) {frame : Frame}
    (h : (rmp.fromSlice buf).run = .value frame) :
    decode rmp buf = (rmp.serialize frame.parts).bind fun tmp =>
      (buf.advance tmp.length).map fun buf => (.ok (some frame), buf) := by
  rw [decode_ne_nil hne, h]

theorem decode_error {buf : Bytes} (hne : buf ≠ []) (h : (rmp.fromSlice buf).run = .error) :
    decode rmp buf = some (.error decodeError, buf) := by
  rw [decode_ne_nil hne, h]

theorem encode_nil_eq_ok {frame : Frame} {bytes : Bytes} :
    encode rmp frame [] = .ok bytes ↔ rmp.serialize frame.parts = some bytes := by
  unfold encode
  cases rmp.serialize frame.parts <;> simp

/-- A frame was serialised again, to a beginning of the buffer's length. -/
theorem decode_eq_frame {buf rest : Bytes} {frame : Frame}
    (h : decode rmp buf = some (.ok (some frame), rest)) :
    ∃ tmp, rmp.serialize frame.parts = some tmp ∧ tmp.length ≤ buf.length ∧
      rest = buf.drop tmp.length := by
  unfold decode at h
  split_ifs at h with hlen
  · simp at h
  · cases hr : (rmp.fromSlice buf).run with
    | panic => simp [hr] at h
    | error => simp [hr] at h
    | value f =>
      rw [hr] at h
      obtain ⟨tmp, hs, hmap⟩ := Option.bind_eq_some_iff.mp h
      obtain ⟨rest', ha, heq⟩ := Option.map_eq_some_iff.mp hmap
      obtain ⟨rfl, rfl⟩ : f = frame ∧ rest' = rest := by simpa using heq
      obtain ⟨hle, rfl⟩ := Bytes.advance_eq_some.mp ha
      exact ⟨tmp, hs, hle, rfl⟩

section Encoding

variable (rmp)

/-- The bytes of a frame that can be serialised. -/
def encoding (frame : Frame) : Bytes := (rmp.serialize frame.parts).getD []

variable {rmp}

theorem encodeAll_eq_ok {frames : List Frame} {buf buffer : Bytes} :
    encodeAll rmp frames buf = .ok buffer ↔
      (∀ f ∈ frames, rmp.serialize f.parts = some (encoding rmp f)) ∧
        buffer = buf ++ frames.flatMap (encoding rmp) := by
  induction frames generalizing buf with
  | nil =>
    have hnil : encodeAll rmp [] buf = .ok buf := rfl
    rw [hnil]
    simp [eq_comm]
  | cons frame frames ih =>
    have hstep : encodeAll rmp (frame :: frames) buf =
        (encode rmp frame buf).bind (encodeAll rmp frames) := rfl
    rw [hstep, encode, List.forall_mem_cons, List.flatMap_cons]
    cases hs : rmp.serialize frame.parts with
    | none => simp [Except.bind]
    | some tmp =>
      have htmp : encoding rmp frame = tmp := by rw [encoding, hs, Option.getD_some]
      rw [htmp]
      simp only [Except.bind, ih, true_and, List.append_assoc]

end Encoding

end Uip.Unix
