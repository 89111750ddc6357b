import Uip.BytesMut
import Uip.StreamDecoder
import Uip.TransportConnection

/-!
# The transport codec

A frame starts with its type. A data frame goes on with its ports and the length of its payload,
two bytes each, and ends with the payload.
-/
namespace Uip.Transport.Codec
open StreamDecoder

/-- The encoding of a frame at the end of `dst`; the length is cut down to sixteen bits. -/
def encode (item : Frame) (dst : Bytes) : Except Error Bytes :=
  match item with
  | .ping => .ok (dst ++ [1])
  | .pong => .ok (dst ++ [2])
  | .data srcPort dstPort data =>
    .ok (dst ++ [3] ++ BigEndian.putU16 srcPort ++ BigEndian.putU16 dstPort ++
      BigEndian.putU16 (UInt16.ofNat data.length) ++ data)

def invalidType : Error := ⟨.invalidData, "invalid message type"⟩

def decodeData (src : Bytes) : Option (Except Error (Option Frame) × Bytes) :=
  if src.length < 7 then some (.ok none, src)
  else do
    let srcPort ← (src.slice 1 3).bind BigEndian.readU16
    let dstPort ← (src.slice 3 5).bind BigEndian.readU16
    let length ← (src.slice 5 7).bind BigEndian.readU16
    if src.length < 7 + length.toNat then return (.ok none, src)
    let src ← src.advance 7
    let (data, src) ← src.splitTo length.toNat
    return (.ok (some (.data srcPort dstPort data)), src)

def decode (src : Bytes) : Option (Except Error (Option Frame) × Bytes) :=
  match src.head? with
  | none => some (.ok none, src)
  | some typ =>
    if typ = 1 then (src.advance 1).map fun src => (.ok (some .ping), src)
    else if typ = 2 then (src.advance 1).map fun src => (.ok (some .pong), src)
    else if typ = 3 then decodeData src
    else some (.error invalidType, src)

def encodeAll (frames : List Frame) (dst : Bytes) : Except Error Bytes :=
  frames.foldlM (fun dst frame => encode frame dst) dst

/-- The bytes that `encode` appends. -/
def encoding : Frame → Bytes
  | .ping => [1]
  | .pong => [2]
  | .data srcPort dstPort data => 3 :: (BigEndian.putU16 srcPort ++ (BigEndian.putU16 dstPort ++
      (BigEndian.putU16 (UInt16.ofNat data.length) ++ data)))

theorem encode_eq (frame : Frame) (dst : Bytes) :
    encode frame dst = .ok (dst ++ encoding frame) := by
  cases frame <;> simp [encode, encoding]

theorem encodeAll_eq (frames : List Frame) (dst : Bytes) :
    encodeAll frames dst = .ok (dst ++ frames.flatMap encoding) := by
  induction frames generalizing dst with
  | nil => simp [encodeAll, pure, Except.pure]
  | cons frame frames ih =>
    have hstep : encodeAll (frame :: frames) dst =
        (encode frame dst).bind (encodeAll frames) := rfl
    rw [hstep, encode_eq, Except.bind, ih, List.flatMap_cons, List.append_assoc]

def Bounded : Frame → Prop
  | .data _ _ data => data.length ≤ 65535
  | _ => True

theorem decode_nil : decode [] = some (.ok none, []) := rfl

theorem decode_ping (rest : Bytes) : decode (1 :: rest) = some (.ok (some .ping), rest) := by
  simp [decode, Bytes.advance]

theorem decode_pong (rest : Bytes) : decode (2 :: rest) = some (.ok (some .pong), rest) := by
  simp [decode, Bytes.advance]

theorem decode_invalid {typ : UInt8} (h : typ ≠ 1 ∧ typ ≠ 2 ∧ typ ≠ 3) (rest : Bytes) :
    decode (typ :: rest) = some (.error invalidType, typ :: rest) := by
  simp [decode, h]

theorem decode_data (rest : Bytes) : decode (3 :: rest) = decodeData (3 :: rest) := by
  simp [decode]

theorem decode_short {rest : Bytes} (h : rest.length < 6) :
    decode (3 :: rest) = some (.ok none, 3 :: rest) := by
  have hlen : (3 :: rest).length < 7 := by
    rw [List.length_cons]
    omega
  rw [decode_data, decodeData, if_pos hlen]

/-- The seven bytes in front of a payload. -/
def header (srcPort dstPort length : UInt16) : Bytes :=
  3 :: (BigEndian.putU16 srcPort ++ (BigEndian.putU16 dstPort ++ BigEndian.putU16 length))

theorem encoding_data (srcPort dstPort : UInt16) (data : Bytes) :
    encoding (.data srcPort dstPort data) =
      header srcPort dstPort (UInt16.ofNat data.length) ++ data := rfl

theorem readU16_header (srcPort dstPort length : UInt16) (rest : Bytes) :
    ((header srcPort dstPort length ++ rest).slice 1 3).bind BigEndian.readU16 = some srcPort ∧
    ((header srcPort dstPort length ++ rest).slice 3 5).bind BigEndian.readU16 = some dstPort ∧
    ((header srcPort dstPort length ++ rest).slice 5 7).bind BigEndian.readU16 = some length := by
  have hread (n : UInt16) : BigEndian.readU16 (BigEndian.putU16 n) = some n := by
    simpa using BigEndian.readU16_putU16 n []
  refine ⟨?_, ?_, ?_⟩
  · exact hread srcPort
  · exact hread dstPort
  · exact hread length

/-- The header and the number of bytes after it decide about the frame. -/
theorem decode_header (srcPort dstPort length : UInt16) (rest : Bytes) :
    decode (header srcPort dstPort length ++ rest) =
      if rest.length < length.toNat then some (.ok none, header srcPort dstPort length ++ rest)
      else some (.ok (some (.data srcPort dstPort (rest.take length.toNat))),
        rest.drop length.toNat) := by
  obtain ⟨hsrc, hdst, hlength⟩ := readU16_header srcPort dstPort length rest
  have hlen : (header srcPort dstPort length ++ rest).length = rest.length + 7 := by
    simp only [header, List.length_append, List.length_cons, BigEndian.length_putU16]
    omega
  have hadvance : (header srcPort dstPort length ++ rest).advance 7 = some rest :=
    Bytes.advance_append (header srcPort dstPort length) rest
  have hdecode : decode (header srcPort dstPort length ++ rest) =
      decodeData (header srcPort dstPort length ++ rest) := decode_data _
  rw [hdecode, decodeData, if_neg (by omega), hsrc, hdst, hlength, hlen]
  simp only [bind, Option.bind_some, pure]
  split_ifs with hshort hrest hrest
  · rfl
  · omega
  · omega
  · rw [hadvance, Option.bind_some, Bytes.splitTo, if_pos (by omega), Option.bind_some]

theorem exists_header {rest : Bytes} (h : 6 ≤ rest.length) :
    ∃ srcPort dstPort length payload, 3 :: rest = header srcPort dstPort length ++ payload := by
  match rest, h with
  | s :: s' :: d :: d' :: l :: l' :: payload, _ =>
    refine ⟨UInt16.ofNat (s.toNat * 256 + s'.toNat), UInt16.ofNat (d.toNat * 256 + d'.toNat),
      UInt16.ofNat (l.toNat * 256 + l'.toNat), payload, ?_⟩
    simp only [header, BigEndian.putU16_of_bytes, List.cons_append, List.nil_append]

/-- The buffers that `decode` tells apart. -/
inductive Shape : Bytes → Prop
  | empty : Shape []
  | ping (rest : Bytes) : Shape (1 :: rest)
  | pong (rest : Bytes) : Shape (2 :: rest)
  | short (rest : Bytes) (h : rest.length < 6) : Shape (3 :: rest)
  | data (srcPort dstPort length : UInt16) (rest : Bytes) :
      Shape (header srcPort dstPort length ++ rest)
  | invalid (typ : UInt8) (rest : Bytes) (h : typ ≠ 1 ∧ typ ≠ 2 ∧ typ ≠ 3) : Shape (typ :: rest)

theorem shape (b : Bytes) : Shape b := by
  cases b with
  | nil => exact .empty
  | cons typ rest =>
    by_cases h1 : typ = 1
    · exact h1 ▸ .ping rest
    by_cases h2 : typ = 2
    · exact h2 ▸ .pong rest
    by_cases h3 : typ = 3
    · subst h3
      by_cases hlen : rest.length < 6
      · exact .short rest hlen
      · obtain ⟨srcPort, dstPort, length, payload, he⟩ := exists_header (Nat.le_of_not_lt hlen)
        exact he ▸ .data srcPort dstPort length payload
    · exact .invalid typ rest ⟨h1, h2, h3⟩

theorem decode_encoding {frame : Frame} (h : Bounded frame) (rest : Bytes) :
    decode (encoding frame ++ rest) = some (.ok (some frame), rest) := by
  cases frame with
  | ping => exact decode_ping rest
  | pong => exact decode_pong rest
  | data srcPort dstPort data =>
    have hlen : (UInt16.ofNat data.length).toNat = data.length := by
      have hb : data.length ≤ 65535 := h
      rw [UInt16.toNat_ofNat']
      omega
    rw [encoding_data, List.append_assoc, decode_header, hlen, if_neg (by simp),
      List.take_left, List.drop_left]

/-- The answer of `decode`, in terms of what `encode` writes. -/
inductive Answer (b : Bytes) : Except Error (Option Frame) → Bytes → Prop
  | frame (f : Frame) (rest : Bytes) (bounded : Bounded f) (whole : b = encoding f ++ rest) :
      Answer b (.ok (some f)) rest
  | more (f : Frame) (bounded : Bounded f) (part : b <+: encoding f) (proper : b ≠ encoding f) :
      Answer b (.ok none) b
  | error (typ : UInt8) (rest : Bytes) (h : typ ≠ 1 ∧ typ ≠ 2 ∧ typ ≠ 3)
      (starts : b = typ :: rest) : Answer b (.error invalidType) b

theorem encoding_of_length (srcPort dstPort : UInt16) {length : UInt16} {payload : Bytes}
    (h : payload.length = length.toNat) :
    encoding (.data srcPort dstPort payload) = header srcPort dstPort length ++ payload ∧
      Bounded (.data srcPort dstPort payload) := by
  have hlen := length.toNat_lt
  rw [encoding_data, h, UInt16.ofNat_toNat]
  refine ⟨rfl, ?_⟩
  change payload.length ≤ 65535
  omega

/-- A data frame without the end of its payload can be completed. -/
theorem exists_encoding_of_part (srcPort dstPort length : UInt16) {payload : Bytes}
    (h : payload.length < length.toNat) :
    ∃ f, Bounded f ∧ header srcPort dstPort length ++ payload <+: encoding f ∧
      header srcPort dstPort length ++ payload ≠ encoding f := by
  have hlen : (payload ++ List.replicate (length.toNat - payload.length) 0).length =
      length.toNat := by
    rw [List.length_append, List.length_replicate]
    omega
  obtain ⟨he, hb⟩ := encoding_of_length srcPort dstPort hlen
  refine ⟨_, hb, ?_, fun hproper => ?_⟩
  · rw [he, ← List.append_assoc]
    exact List.prefix_append ..
  · have hl := congrArg List.length hproper
    rw [he, List.length_append, List.length_append] at hl
    omega

theorem exists_encoding_of_short {rest : Bytes} (h : rest.length < 6) :
    ∃ f, Bounded f ∧ 3 :: rest <+: encoding f ∧ 3 :: rest ≠ encoding f := by
  have hlen : (rest ++ List.replicate (6 - rest.length) 0).length = 6 := by
    rw [List.length_append, List.length_replicate]
    omega
  obtain ⟨srcPort, dstPort, length, payload, hheader⟩ := exists_header (Nat.le_of_eq hlen.symm)
  have hpayload : (List.replicate length.toNat (0 : UInt8)).length = length.toNat :=
    List.length_replicate
  obtain ⟨he, hb⟩ := encoding_of_length srcPort dstPort hpayload
  have hnil : payload = [] := by
    have hl := congrArg List.length hheader
    rw [List.length_cons, hlen, List.length_append] at hl
    simp only [header, List.length_append, List.length_cons, BigEndian.length_putU16] at hl
    exact List.eq_nil_of_length_eq_zero (by omega)
  rw [hnil, List.append_nil] at hheader
  refine ⟨_, hb, ?_, fun hproper => ?_⟩
  · rw [he, ← hheader, List.cons_append, List.append_assoc]
    exact List.cons_prefix_cons.mpr ⟨rfl, List.prefix_append ..⟩
  · have hl := congrArg List.length hproper
    rw [he, List.length_append, ← hheader] at hl
    simp only [List.length_cons, hlen] at hl
    omega

theorem decode_answer (b : Bytes) : ∃ answer rest, decode b = some (answer, rest) ∧
    Answer b answer rest := by
  cases shape b with
  | empty =>
    exact ⟨_, _, decode_nil, .more .ping trivial (List.nil_prefix) (by simp [encoding])⟩
  | ping rest => exact ⟨_, _, decode_ping rest, .frame .ping rest trivial rfl⟩
  | pong rest => exact ⟨_, _, decode_pong rest, .frame .pong rest trivial rfl⟩
  | short rest h =>
    obtain ⟨f, hb, hpart, hproper⟩ := exists_encoding_of_short h
    exact ⟨_, _, decode_short h, .more f hb hpart hproper⟩
  | data srcPort dstPort length rest =>
    rw [decode_header]
    split_ifs with h
    · obtain ⟨f, hb, hpart, hproper⟩ := exists_encoding_of_part srcPort dstPort length h
      exact ⟨_, _, rfl, .more f hb hpart hproper⟩
    · have htake : (rest.take length.toNat).length = length.toNat := by
        rw [List.length_take]
        omega
      obtain ⟨he, hb⟩ := encoding_of_length srcPort dstPort htake
      refine ⟨_, _, rfl, .frame _ _ hb ?_⟩
      rw [he, List.append_assoc, List.take_append_drop]
  | invalid typ rest h => exact ⟨_, _, decode_invalid h rest, .error typ rest h rfl⟩

theorem answer_of_decode {b rest : Bytes} {answer : Except Error (Option Frame)}
    (h : decode b = some (answer, rest)) : Answer b answer rest := by
  obtain ⟨answer', rest', hd, ha⟩ := decode_answer b
  obtain ⟨rfl, rfl⟩ := Prod.mk.inj (Option.some.inj (h.symm.trans hd))
  exact ha

theorem decode_eq_frame {b rest : Bytes} {f : Frame} (h : decode b = some (.ok (some f), rest)) :
    Bounded f ∧ b = encoding f ++ rest := by
  cases answer_of_decode h with
  | frame _ _ bounded whole => exact ⟨bounded, whole⟩

theorem encoding_length_pos (f : Frame) : 0 < (encoding f).length := by
  cases f <;> simp [encoding]

theorem decode_incremental : Incremental decode where
  progress b f rest h := by
    have hpos := encoding_length_pos f
    rw [(decode_eq_frame h).2, List.length_append]
    omega
  total b := by
    obtain ⟨answer, rest, h, -⟩ := decode_answer b
    simp [h]
  more b rest h := by
    cases answer_of_decode h with
    | more => rfl
  frame b f rest h input := by
    obtain ⟨hb, rfl⟩ := decode_eq_frame h
    rw [List.append_assoc]
    exact decode_encoding hb (rest ++ input)
  error b e rest h input := by
    cases answer_of_decode h with
    | error typ tail ht starts =>
      rw [starts, List.cons_append]
      exact ⟨_, decode_invalid ht (tail ++ input)⟩

theorem drain_encoding {frame : Frame} (h : Bounded frame) :
    drain decode (encoding frame) = ⟨[frame], .more, []⟩ := by
  have hinv : ∀ f ∈ [frame], ∀ rest, decode (encoding f ++ rest) = some (.ok (some f), rest) := by
    intro f hf rest
    obtain rfl := List.mem_singleton.mp hf
    exact decode_encoding h rest
  simpa using drain_flatMap decode_incremental.progress decode_nil hinv

end Uip.Transport.Codec
