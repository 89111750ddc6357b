import Uip.TransportCodec

/-!
# What the transport codec guarantees

Decoding against encoding, on one buffer, on lists of frames and on input that arrives in chunks.
-/
namespace Uip.Transport.Codec
open StreamDecoder

section Grammar

theorem bounded_of_encoding_eq {f g : Frame} (hf : Bounded f) (h : encoding g = encoding f) :
    Bounded g := by
  cases g with
  | ping => trivial
  | pong => trivial
  | data srcPort dstPort data =>
    cases f with
    | ping => simp [encoding] at h
    | pong => simp [encoding] at h
    | data srcPort' dstPort' data' =>
      have hl := congrArg List.length h
      have hb : data'.length ≤ 65535 := hf
      rw [encoding_data, encoding_data, List.length_append, List.length_append] at hl
      change data.length ≤ 65535
      simp only [header, List.length_append, List.length_cons, BigEndian.length_putU16] at hl
      omega

theorem eq_of_encoding_eq {f g : Frame} (hf : Bounded f) (h : encoding g = encoding f) :
    g = f := by
  have hg := decode_encoding (bounded_of_encoding_eq hf h) []
  rw [h, decode_encoding hf []] at hg
  simpa using hg.symm

theorem eq_encoding_of_encode {f : Frame} {bytes : Bytes} (h : encode f [] = .ok bytes) :
    bytes = encoding f := by
  rw [encode_eq, List.nil_append] at h
  exact (Except.ok.inj h).symm

theorem encode_nil (f : Frame) : encode f [] = .ok (encoding f) := by
  rw [encode_eq, List.nil_append]

theorem not_encoding_prefix {typ : UInt8} (h : typ ≠ 1 ∧ typ ≠ 2 ∧ typ ≠ 3) (rest : Bytes)
    (f : Frame) : ¬ encoding f <+: typ :: rest := by
  obtain ⟨h1, h2, h3⟩ := h
  cases f with
  | ping => exact fun hp => h1 (List.cons_prefix_cons.mp hp).1.symm
  | pong => exact fun hp => h2 (List.cons_prefix_cons.mp hp).1.symm
  | data => exact fun hp => h3 (List.cons_prefix_cons.mp hp).1.symm

/-- `decode` accepts exactly what `encode` writes and stops at once where no frame can follow. -/
theorem decode_grammar (b : Bytes) :
    ∃ answer rest, decode b = some (answer, rest) ∧
      match answer with
      | .ok (some f) => (∃ bytes, encode f [] = .ok bytes ∧ b = bytes ++ rest) ∧
          ∀ g bytes, encode g [] = .ok bytes → b = bytes ++ rest → g = f
      | .ok none => rest = b ∧ ∃ f bytes, encode f [] = .ok bytes ∧ b <+: bytes ∧ b ≠ bytes
      | .error _ => rest = b ∧
          ∀ input f bytes, encode f [] = .ok bytes → ¬ bytes <+: b ++ input := by
  obtain ⟨answer, rest, h, ha⟩ := decode_answer b
  refine ⟨answer, rest, h, ?_⟩
  cases ha with
  | frame f rest bounded whole =>
    refine ⟨⟨encoding f, encode_nil f, whole⟩, fun g bytes hg hb => ?_⟩
    apply eq_of_encoding_eq bounded
    rw [← eq_encoding_of_encode hg]
    exact List.append_cancel_right (hb.symm.trans whole)
  | more f bounded part proper => exact ⟨rfl, f, encoding f, encode_nil f, part, proper⟩
  | error typ tail ht starts =>
    refine ⟨rfl, fun input f bytes hf => ?_⟩
    rw [eq_encoding_of_encode hf, starts, List.cons_append]
    exact not_encoding_prefix ht (tail ++ input) f

end Grammar

section RoundTrip

/-- A list of frames comes back from its encoding exactly where every payload fits its length
field. -/
theorem drain_encodeAll_iff (frames : List Frame) (buffer : Bytes)
    (h : encodeAll frames [] = .ok buffer) :
    drain decode buffer = ⟨frames, .more, []⟩ ↔
      ∀ srcPort dstPort data, Frame.data srcPort dstPort data ∈ frames → data.length ≤ 65535 := by
  rw [encodeAll_eq, List.nil_append] at h
  obtain rfl := Except.ok.inj h
  have hp := decode_incremental.progress
  constructor
  · intro hd srcPort dstPort data hmem
    have hmem' : Frame.data srcPort dstPort data ∈
        (drain decode (frames.flatMap encoding)).frames := by
      rw [hd]
      exact hmem
    obtain ⟨b, rest, hb⟩ := exists_of_mem_drain hp hmem'
    exact (decode_eq_frame hb).1
  · intro hall
    apply drain_flatMap hp decode_nil
    intro f hf rest
    apply decode_encoding
    cases f with
    | ping => trivial
    | pong => trivial
    | data srcPort dstPort data => exact hall srcPort dstPort data hf

theorem drain_encodeAll_pong_data :
    drain decode (2 :: encoding (.data 7 9 [1, 2])) = ⟨[.pong, .data 7 9 [1, 2]], .more, []⟩ := by
  apply (drain_encodeAll_iff [.pong, .data 7 9 [1, 2]] _ rfl).mpr
  intro srcPort dstPort data h
  obtain ⟨rfl, rfl, rfl⟩ : srcPort = 7 ∧ dstPort = 9 ∧ data = [1, 2] := by simpa using h
  decide

theorem decode_encoding_data (srcPort dstPort : UInt16) (data : Bytes) :
    decode (encoding (.data srcPort dstPort data)) =
      some (.ok (some (.data srcPort dstPort (data.take (data.length % 65536)))),
        data.drop (data.length % 65536)) := by
  have hlen : (UInt16.ofNat data.length).toNat = data.length % 65536 := UInt16.toNat_ofNat'
  have hle : ¬ data.length < data.length % 65536 := Nat.not_lt.mpr (Nat.mod_le ..)
  rw [encoding_data, decode_header, hlen, if_neg hle]

/-- One byte more than the length field can tell: the payload is taken for the next frame. -/
theorem drain_encoding_of_length {data rest : Bytes} {typ : UInt8} (hlen : data.length = 65536)
    (hstart : data = typ :: rest) (ht : typ ≠ 1 ∧ typ ≠ 2 ∧ typ ≠ 3) (srcPort dstPort : UInt16) :
    drain decode (encoding (.data srcPort dstPort data)) =
      ⟨[.data srcPort dstPort []], .error invalidType, data⟩ := by
  have hframe := decode_encoding_data srcPort dstPort data
  rw [hlen, Nat.mod_self, List.take_zero, List.drop_zero] at hframe
  have hinvalid : decode data = some (.error invalidType, data) := by
    rw [hstart]
    exact decode_invalid ht rest
  rw [drain_frame decode_incremental.progress hframe, drain_error hinvalid]
  rfl

theorem drain_encodeAll_oversized :
    ∃ data buffer, data = List.replicate 65536 0 ∧
      encodeAll [.data 0 0 data] [] = .ok buffer ∧
      drain decode buffer = ⟨[.data 0 0 []], .error invalidType, data⟩ ∧
      drain decode buffer ≠ ⟨[.data 0 0 data], .more, []⟩ := by
  obtain ⟨data, hdata⟩ : ∃ data : Bytes, data = List.replicate 65536 0 := ⟨_, rfl⟩
  have hlen : data.length = 65536 := by rw [hdata, List.length_replicate]
  have hstart : data = 0 :: List.replicate 65535 0 := by rw [hdata, List.replicate_succ]
  have hdrain := drain_encoding_of_length hlen hstart (by decide) 0 0
  refine ⟨data, [] ++ [Frame.data 0 0 data].flatMap encoding, hdata, encodeAll_eq _ _, ?_, ?_⟩
  · rw [List.nil_append, List.flatMap_singleton]
    exact hdrain
  · rw [List.nil_append, List.flatMap_singleton, hdrain]
    intro h
    exact absurd (congrArg Drained.stop h) (by simp)

end RoundTrip

/-- Decoding does not depend on how the bytes arrive. -/
theorem feed_decode (chunks : List Bytes) :
    (feed decode chunks []).Same (feed decode [chunks.flatten] []) := by
  have hnil : drain decode [] = ⟨[], .more, []⟩ := drain_more decode_nil
  have hmany := decode_incremental.feed_same hnil chunks
  have hone := decode_incremental.feed_same hnil [chunks.flatten]
  rw [List.flatten_singleton] at hone
  exact hmany.trans hone.symm

end Uip.Transport.Codec
