import Uip.UnixRmpSerde

/-!
# What the control socket codec guarantees

Pipelined frames, input that arrives in chunks, and encodings that are longer than necessary.
-/
namespace Uip.Unix
open StreamDecoder

variable {rmp : RmpSerde}

section Pipelined

theorem RmpSerde.Inverts.length_pos (h : rmp.Inverts) {parts : Parts} {bytes : Bytes}
    (hs : rmp.serialize parts = some bytes) : 0 < bytes.length := by
  apply List.length_pos_of_ne_nil
  rintro rfl
  exact h.nonempty parts hs

theorem decode_progress (h : rmp.Inverts) : Progress (decode rmp) := by
  intro buf frame rest hd
  obtain ⟨tmp, hs, hle, rfl⟩ := decode_eq_frame hd
  have hpos := h.length_pos hs
  rw [List.length_drop]
  omega

theorem decode_serialized (h : rmp.Inverts) {frame : Frame} {bytes : Bytes}
    (hs : rmp.serialize frame.parts = some bytes) (rest : Bytes) :
    decode rmp (bytes ++ rest) = some (.ok (some frame), rest) := by
  have hne : bytes ++ rest ≠ [] := by
    intro hnil
    rw [(List.append_eq_nil_iff.mp hnil).1] at hs
    exact h.nonempty frame.parts hs
  have hread : (rmp.fromSlice (bytes ++ rest)).run = .value frame := by
    rw [h.inverse frame.parts bytes hs rest, run_read]
  rw [decode_value hne hread, hs, Option.bind_some, Bytes.advance_append, Option.map_some]

/-- A list of frames comes back from its encoding. -/
theorem drain_encodeAll (h : rmp.Inverts) {frames : List Frame} {buffer : Bytes}
    (hb : encodeAll rmp frames [] = .ok buffer) :
    drain (decode rmp) buffer = ⟨frames, .more, []⟩ := by
  obtain ⟨hall, rfl⟩ := encodeAll_eq_ok.mp hb
  rw [List.nil_append]
  apply drain_flatMap (decode_progress h) decode_nil
  intro f hf rest
  exact decode_serialized h (hall f hf) rest

theorem drain_encodeAll_sample :
    drain (decode (.ofTable sampleTable)) (sampleTable.flatMap Prod.snd) =
      ⟨[.bind 80, .error .notBound, .data sampleId 7 [1, 255]], .more, []⟩ :=
  drain_encodeAll sampleTable_prefixFree.inverts (by decide +kernel)

end Pipelined

section Chunks

theorem decode_part (ht : rmp.RejectsTruncated) {frame : Frame} {bytes part : Bytes}
    (hs : rmp.serialize frame.parts = some bytes) (hpre : part <+: bytes)
    (hproper : part ≠ bytes) (hne : part ≠ []) :
    decode rmp part = some (.error decodeError, part) :=
  decode_error hne (ht frame bytes part hs hpre hproper)

/-- Every chunk is what encoding a group of frames gives. -/
def WholeFrames (rmp : RmpSerde) (frames : List Frame) (chunks : List Bytes) : Prop :=
  ∃ groups : List (List Frame), groups.flatten = frames ∧
    List.Forall₂ (fun group chunk => encodeAll rmp group [] = .ok chunk) groups chunks

theorem wholeFrames_iff {frames : List Frame} {chunks : List Bytes}
    (hall : ∀ f ∈ frames, rmp.serialize f.parts = some (encoding rmp f)) :
    WholeFrames rmp frames chunks ↔ AtBoundaries (encoding rmp) frames chunks := by
  constructor
  · rintro ⟨groups, hgroups, hchunks⟩
    refine ⟨groups, hgroups, ?_⟩
    induction hchunks generalizing frames with
    | nil => rfl
    | cons hchunk _ ih =>
      rw [List.flatten_cons] at hgroups
      have hrest := ih (fun f hf => hall f (hgroups ▸ List.mem_append_right _ hf)) rfl
      rw [List.map_cons, hrest, (encodeAll_eq_ok.mp hchunk).2, List.nil_append]
  · rintro ⟨groups, hgroups, rfl⟩
    refine ⟨groups, hgroups, ?_⟩
    rw [List.forall₂_map_right_iff, List.forall₂_same]
    intro group hgroup
    refine encodeAll_eq_ok.mpr ⟨fun f hf => hall f ?_, rfl⟩
    rw [← hgroups]
    exact List.mem_flatten_of_mem hgroup hf

theorem feed_whole (h : rmp.Inverts) {frames : List Frame} {buffer : Bytes}
    (hb : encodeAll rmp frames [] = .ok buffer) :
    feed (decode rmp) [buffer] [] = ⟨frames, .more, []⟩ := by
  have hdrain : drain (decode rmp) ([] ++ buffer) = ⟨frames, .more, []⟩ := drain_encodeAll h hb
  rw [feed_more hdrain, feed, Drained.prepend, List.append_nil]

theorem feed_eq_whole_iff (h : rmp.Inverts) (ht : rmp.RejectsTruncated) {frames : List Frame}
    {chunks : List Bytes} (hb : encodeAll rmp frames [] = .ok chunks.flatten) :
    (∀ e, (feed (decode rmp) chunks []).stop ≠ .error e) ∧
        (feed (decode rmp) chunks []).frames = (feed (decode rmp) [chunks.flatten] []).frames ↔
      WholeFrames rmp frames chunks := by
  obtain ⟨hall, hflat⟩ := encodeAll_eq_ok.mp hb
  have hp := decode_progress h
  have hinv : ∀ f ∈ frames, ∀ rest,
      decode rmp (encoding rmp f ++ rest) = some (.ok (some f), rest) :=
    fun f hf rest => decode_serialized h (hall f hf) rest
  rw [feed_whole h hb, wholeFrames_iff hall]
  constructor
  · rintro ⟨hno, -⟩
    apply boundaries_of_feed hp decode_nil hinv _ hflat _ hno
    · intro f hf part hpre hproper hne
      exact ⟨_, _, decode_part ht (hall f hf) hpre hproper hne⟩
    · intro f hf hnil
      exact h.nonempty f.parts (hnil ▸ hall f hf)
  · intro hbound
    rw [feed_of_boundaries hp decode_nil hinv hbound]
    exact ⟨by simp, rfl⟩

/-- Input in chunks is read like the whole exactly where every chunk ends with a frame, and the
beginning of a frame is left alone only while it is empty. -/
theorem feed_decode_iff (h : rmp.Inverts) (ht : rmp.RejectsTruncated) :
    (∀ (frames : List Frame) (chunks : List Bytes),
      encodeAll rmp frames [] = .ok chunks.flatten →
      ((∀ e, (feed (decode rmp) chunks []).stop ≠ .error e) ∧
          (feed (decode rmp) chunks []).frames =
            (feed (decode rmp) [chunks.flatten] []).frames ↔
        WholeFrames rmp frames chunks)) ∧
    ∀ (frame : Frame) (bytes part : Bytes), encode rmp frame [] = .ok bytes → part <+: bytes →
      part ≠ bytes → (decode rmp part = some (.ok none, part) ↔ part = []) := by
  refine ⟨fun frames chunks hb => feed_eq_whole_iff h ht hb, ?_⟩
  intro frame bytes part hf hpre hproper
  have hs := encode_nil_eq_ok.mp hf
  constructor
  · intro hd
    by_contra hne
    simp [decode_part ht hs hpre hproper hne] at hd
  · rintro rfl
    exact decode_nil

theorem feed_decode_bind :
    (feed (decode (.ofTable sampleTable)) [[0x81, 0x00, 0x50], [0x81, 0x00, 0x50]] []).frames =
      (feed (decode (.ofTable sampleTable)) [[0x81, 0x00, 0x50, 0x81, 0x00, 0x50]] []).frames := by
  have hiff := (feed_decode_iff sampleTable_prefixFree.inverts
    sampleTable_prefixFree.rejectsTruncated).1 [.bind 80, .bind 80]
    [[0x81, 0x00, 0x50], [0x81, 0x00, 0x50]] (by decide +kernel)
  have hwhole : WholeFrames (.ofTable sampleTable) [.bind 80, .bind 80]
      [[0x81, 0x00, 0x50], [0x81, 0x00, 0x50]] :=
    ⟨[[.bind 80], [.bind 80]], rfl, .cons (by decide +kernel) (.cons (by decide +kernel) .nil)⟩
  exact (hiff.mpr hwhole).2

/-- The first byte of a frame arrives before the others. -/
theorem feed_decode_cut : ∃ rmp : RmpSerde, rmp.Inverts ∧ rmp.RejectsTruncated ∧
    encodeAll rmp [.bind 80] [] = .ok [0x81, 0x00, 0x50] ∧
    feed (decode rmp) [[0x81, 0x00, 0x50]] [] = ⟨[.bind 80], .more, []⟩ ∧
    feed (decode rmp) [[0x81], [0x00, 0x50]] [] = ⟨[], .error decodeError, [0x81]⟩ ∧
    decode rmp [0x81] = some (.error decodeError, [0x81]) :=
  ⟨.ofTable sampleTable, sampleTable_prefixFree.inverts, sampleTable_prefixFree.rejectsTruncated,
    by decide +kernel, by decide +kernel, by decide +kernel, by decide +kernel⟩

end Chunks

section Width

/-- The bytes are one encoding of the frame: they are accepted as the frame, and no beginning of
them is accepted. -/
def Encodes (rmp : RmpSerde) (bytes : Bytes) (frame : Frame) : Prop :=
  (rmp.fromSlice bytes).run = .value frame ∧
    ∀ part, part <+: bytes → part ≠ bytes → ∀ other, (rmp.fromSlice part).run ≠ .value other

theorem len_of_deserialize {string : Text} {id : Identifier}
    (h : Identifier.deserialize string = .value id) : string.len = 64 := by
  unfold Identifier.deserialize at h
  split_ifs at h with hlen
  omega

/-- An accepted frame is serialised again to no more bytes than it was read from. -/
theorem serialize_le (h : rmp.Lenient) {bytes : Bytes} {frame : Frame}
    (hr : (rmp.fromSlice bytes).run = .value frame) :
    ∃ tmp, rmp.serialize frame.parts = some tmp ∧ tmp.length ≤ bytes.length := by
  obtain ⟨parts, hparts⟩ := h.parts bytes frame hr
  obtain ⟨tmp, hs, hle⟩ := h.shortest bytes parts hparts
  rw [hparts] at hr
  cases parts with
  | bind port =>
    obtain rfl : Frame.bind port = frame := by simpa [Parts.read, Reader.run] using hr
    exact ⟨tmp, hs, hle⟩
  | error code =>
    obtain rfl : Frame.error code = frame := by simpa [Parts.read, Reader.run] using hr
    exact ⟨tmp, hs, hle⟩
  | data string port data =>
    -- The text that was read may differ from the one written, but not in its length.
    simp only [Parts.read, Reader.run] at hr
    cases hid : Identifier.deserialize string with
    | error => simp [hid] at hr
    | panic => simp [hid] at hr
    | value hostId =>
      obtain rfl : Frame.data hostId port data = frame := by simpa [hid] using hr
      have hlen : string.len = hostId.text.len := by
        rw [len_of_deserialize hid, Identifier.len_text]
      obtain ⟨tmp', hs', htmp⟩ := h.string string hostId.text port data tmp hlen hs
      exact ⟨tmp', hs', by omega⟩

theorem encodes_serialized (h : rmp.Inverts) (hl : rmp.Lenient) {frame : Frame} {tmp : Bytes}
    (hs : rmp.serialize frame.parts = some tmp) : Encodes rmp tmp frame := by
  have hread : rmp.fromSlice tmp = frame.parts.read := by
    simpa using h.inverse frame.parts tmp hs []
  refine ⟨by rw [hread, run_read], fun part hpre hproper other hr => ?_⟩
  obtain ⟨parts, hparts⟩ := hl.parts part other hr
  obtain ⟨tail, rfl⟩ := hpre
  have hsame : parts = frame.parts :=
    read_injective ((hl.trailing part parts hparts tail).symm.trans hread)
  obtain ⟨tmp', hs', hle⟩ := hl.shortest part parts hparts
  rw [hsame, hs] at hs'
  obtain rfl := Option.some.inj hs'
  rw [List.length_append] at hle
  have htail : tail = [] := List.eq_nil_of_length_eq_zero (by omega)
  exact hproper (by rw [htail, List.append_nil])

/-- A frame is returned for any of its encodings, and exactly this encoding is consumed if and only
if the frame has no shorter one. -/
theorem decode_encoded_iff (h : rmp.Inverts) (hl : rmp.Lenient) {bytes : Bytes} {frame : Frame}
    (he : Encodes rmp bytes frame) (rest : Bytes) :
    (∃ left, decode rmp (bytes ++ rest) = some (.ok (some frame), left)) ∧
      (decode rmp (bytes ++ rest) = some (.ok (some frame), rest) ↔
        ∀ other, Encodes rmp other frame → bytes.length ≤ other.length) := by
  obtain ⟨tmp, hs, hle⟩ := serialize_le hl he.1
  have hpos := h.length_pos hs
  have hne : bytes ++ rest ≠ [] := by
    intro hnil
    rw [(List.append_eq_nil_iff.mp hnil).1, List.length_nil] at hle
    omega
  have hread : (rmp.fromSlice (bytes ++ rest)).run = .value frame := by
    obtain ⟨parts, hparts⟩ := hl.parts bytes frame he.1
    rw [hl.trailing bytes parts hparts rest, ← hparts, he.1]
  have hadvance : (bytes ++ rest).advance tmp.length = some ((bytes ++ rest).drop tmp.length) :=
    Bytes.advance_eq_some.mpr ⟨by rw [List.length_append]; omega, rfl⟩
  have hdecode : decode rmp (bytes ++ rest) =
      some (.ok (some frame), (bytes ++ rest).drop tmp.length) := by
    rw [decode_value hne hread, hs, Option.bind_some, hadvance, Option.map_some]
  refine ⟨⟨_, hdecode⟩, ?_⟩
  rw [hdecode]
  constructor
  · intro heq other hother
    have hlen := congrArg (fun r => r.elim 0 fun x => x.2.length) heq
    simp only [Option.elim_some, List.length_drop, List.length_append] at hlen
    obtain ⟨tmp', hs', hle'⟩ := serialize_le hl hother.1
    obtain rfl : tmp = tmp' := Option.some.inj (hs.symm.trans hs')
    omega
  · intro hall
    have hlen : tmp.length = bytes.length := by
      have := hall tmp (encodes_serialized h hl hs)
      omega
    rw [hlen, List.drop_left]

theorem PrefixFree.encodes {table : List (Parts × Bytes)} (h : PrefixFree table) {frame : Frame}
    {bytes : Bytes} (hx : (frame.parts, bytes) ∈ table) :
    Encodes (.ofTable table) bytes frame := by
  constructor
  · rw [h.find hx List.prefix_rfl, run_read]
  · intro part hpre hproper other
    rw [h.fromSlice_part hx hpre hproper]
    simp [Reader.run]

theorem decode_encoded_bind :
    (∃ left, decode (.ofTable wideTable) ([0x81, 0x00, 0x50] ++ [1]) =
      some (.ok (some (.bind 80)), left)) ∧
    (decode (.ofTable wideTable) ([0x81, 0x00, 0x50] ++ [1]) = some (.ok (some (.bind 80)), [1]) ↔
      ∀ other, Encodes (.ofTable wideTable) other (.bind 80) →
        ([0x81, 0x00, 0x50] : Bytes).length ≤ other.length) :=
  decode_encoded_iff wideTable_prefixFree.inverts wideTable_lenient
    (wideTable_prefixFree.encodes (by decide)) [1]

/-- The end of a wide encoding stays in the buffer. -/
theorem decode_encoded_wide : ∃ rmp : RmpSerde, rmp.Inverts ∧ rmp.Lenient ∧
    Encodes rmp [0x81, 0x00, 0xcd, 0x00, 0x50] (.bind 80) ∧
    decode rmp [0x81, 0x00, 0xcd, 0x00, 0x50] = some (.ok (some (.bind 80)), [0x00, 0x50]) :=
  ⟨.ofTable wideTable, wideTable_prefixFree.inverts, wideTable_lenient,
    wideTable_prefixFree.encodes (by decide), by decide⟩

end Width

end Uip.Unix
