import Uip.UnixCodec

/-! The laws that the control socket codec relies on `rmp_serde` for, and a codec that obeys them
for the encodings in a table. -/
namespace Uip.Unix

namespace RmpSerde

/-- Reading inverts writing and ignores what follows; a value takes at least one byte. -/
structure Inverts (rmp : RmpSerde) : Prop where
  inverse : ∀ parts bytes, rmp.serialize parts = some bytes →
    ∀ rest, rmp.fromSlice (bytes ++ rest) = parts.read
  nonempty : ∀ parts, rmp.serialize parts ≠ some []

/-- Reading a frame that is cut short is an error. -/
def RejectsTruncated (rmp : RmpSerde) : Prop :=
  ∀ (frame : Frame) bytes part, rmp.serialize frame.parts = some bytes → part <+: bytes →
    part ≠ bytes → (rmp.fromSlice part).run = .error

/-- A frame is read from its parts, in any width, and written in the shortest one. The width of a
string depends on its length. -/
structure Lenient (rmp : RmpSerde) : Prop where
  parts : ∀ bytes (frame : Frame), (rmp.fromSlice bytes).run = .value frame →
    ∃ parts : Parts, rmp.fromSlice bytes = parts.read
  trailing : ∀ bytes (parts : Parts), rmp.fromSlice bytes = parts.read →
    ∀ rest, rmp.fromSlice (bytes ++ rest) = parts.read
  shortest : ∀ bytes (parts : Parts), rmp.fromSlice bytes = parts.read →
    ∃ tmp, rmp.serialize parts = some tmp ∧ tmp.length ≤ bytes.length
  string : ∀ s t port data tmp, s.len = t.len → rmp.serialize (.data s port data) = some tmp →
    ∃ tmp', rmp.serialize (.data t port data) = some tmp' ∧ tmp'.length = tmp.length

end RmpSerde

section Table

/-- A codec that knows the listed encodings, the first of each frame being the one it writes, and
reports an error on any other bytes. -/
def RmpSerde.ofTable (table : List (Parts × Bytes)) : RmpSerde where
  serialize parts := (table.find? fun entry => entry.1 = parts).map Prod.snd
  fromSlice bytes :=
    match table.find? fun entry => entry.2.isPrefixOf bytes with
    | some entry => entry.1.read
    | none => .error

/-- No encoding is empty or the beginning of another. -/
def PrefixFree (table : List (Parts × Bytes)) : Prop :=
  ∀ x ∈ table, x.2 ≠ [] ∧ ∀ y ∈ table, x.2 <+: y.2 → x = y

instance (table : List (Parts × Bytes)) : Decidable (PrefixFree table) :=
  inferInstanceAs (Decidable (∀ x ∈ table, x.2 ≠ [] ∧ ∀ y ∈ table, x.2 <+: y.2 → x = y))

variable {table : List (Parts × Bytes)}

theorem mem_of_find_prefix {bytes : Bytes} {x : Parts × Bytes}
    (h : (table.find? fun entry => entry.2.isPrefixOf bytes) = some x) :
    x ∈ table ∧ x.2 <+: bytes :=
  ⟨List.mem_of_find?_eq_some h, by simpa using List.find?_some h⟩

theorem exists_of_serialize {parts : Parts} {bytes : Bytes}
    (h : (RmpSerde.ofTable table).serialize parts = some bytes) : (parts, bytes) ∈ table := by
  obtain ⟨⟨p, b⟩, hf, rfl⟩ := Option.map_eq_some_iff.mp h
  obtain rfl : p = parts := by simpa using List.find?_some hf
  exact List.mem_of_find?_eq_some hf

theorem PrefixFree.find (h : PrefixFree table) {x : Parts × Bytes} (hx : x ∈ table)
    {bytes : Bytes} (hpre : x.2 <+: bytes) :
    (RmpSerde.ofTable table).fromSlice bytes = x.1.read := by
  cases hf : table.find? fun entry => entry.2.isPrefixOf bytes with
  | none => simpa [List.isPrefixOf_iff_prefix.mpr hpre] using List.find?_eq_none.mp hf x hx
  | some y =>
    obtain ⟨hy, hypre⟩ := mem_of_find_prefix hf
    have hxy : x = y := by
      rcases List.prefix_or_prefix_of_prefix hpre hypre with hp | hp
      · exact (h x hx).2 y hy hp
      · exact ((h y hy).2 x hx hp).symm
    simp only [RmpSerde.ofTable, hf, hxy]

theorem PrefixFree.inverts (h : PrefixFree table) : (RmpSerde.ofTable table).Inverts where
  inverse _ bytes hs rest :=
    h.find (exists_of_serialize hs) (List.prefix_append bytes rest)
  nonempty _ hs := (h _ (exists_of_serialize hs)).1 rfl

theorem PrefixFree.fromSlice_part (h : PrefixFree table) {x : Parts × Bytes} (hx : x ∈ table)
    {part : Bytes} (hpre : part <+: x.2) (hproper : part ≠ x.2) :
    (RmpSerde.ofTable table).fromSlice part = .error := by
  cases hf : table.find? fun entry => entry.2.isPrefixOf part with
  | none => simp only [RmpSerde.ofTable, hf]
  | some y =>
    obtain ⟨hy, hypre⟩ := mem_of_find_prefix hf
    obtain rfl := (h y hy).2 x hx (hypre.trans hpre)
    exact absurd (hpre.eq_of_length (Nat.le_antisymm hpre.length_le hypre.length_le)) hproper

theorem PrefixFree.rejectsTruncated (h : PrefixFree table) :
    (RmpSerde.ofTable table).RejectsTruncated := by
  intro frame bytes part hs hpre hproper
  rw [h.fromSlice_part (exists_of_serialize hs) hpre hproper, Reader.run]

theorem exists_of_fromSlice {bytes : Bytes}
    (h : (RmpSerde.ofTable table).fromSlice bytes ≠ .error) :
    ∃ x ∈ table, x.2 <+: bytes ∧ (RmpSerde.ofTable table).fromSlice bytes = x.1.read := by
  cases hf : table.find? fun entry => entry.2.isPrefixOf bytes with
  | none => exact absurd (by simp only [RmpSerde.ofTable, hf]) h
  | some x =>
    obtain ⟨hx, hpre⟩ := mem_of_find_prefix hf
    exact ⟨x, hx, hpre, by simp only [RmpSerde.ofTable, hf]⟩

theorem read_ne_error (parts : Parts) : parts.read ≠ .error := by
  cases parts <;> simp [Parts.read]

theorem PrefixFree.lenient (h : PrefixFree table)
    (hshort : ∀ x ∈ table, ((RmpSerde.ofTable table).serialize x.1).any
      (fun tmp => decide (tmp.length ≤ x.2.length)) = true)
    (hstring : ∀ s port data, (RmpSerde.ofTable table).serialize (.data s port data) = none) :
    (RmpSerde.ofTable table).Lenient where
  parts bytes frame hr := by
    have hne : (RmpSerde.ofTable table).fromSlice bytes ≠ .error := by
      intro he
      simp [he, Reader.run] at hr
    obtain ⟨x, -, -, hx⟩ := exists_of_fromSlice hne
    exact ⟨x.1, hx⟩
  trailing bytes parts hr rest := by
    have hne : (RmpSerde.ofTable table).fromSlice bytes ≠ .error := hr ▸ read_ne_error parts
    obtain ⟨x, hx, hpre, hread⟩ := exists_of_fromSlice hne
    rw [h.find hx (hpre.trans (List.prefix_append bytes rest)), ← hread, hr]
  shortest bytes parts hr := by
    have hne : (RmpSerde.ofTable table).fromSlice bytes ≠ .error := hr ▸ read_ne_error parts
    obtain ⟨x, hx, hpre, hread⟩ := exists_of_fromSlice hne
    obtain ⟨tmp, hs, hle⟩ := (Option.any_eq_true ..).mp (hshort x hx)
    rw [read_injective (hread.symm.trans hr)] at hs
    have hle' : tmp.length ≤ x.2.length := of_decide_eq_true hle
    exact ⟨tmp, hs, Nat.le_trans hle' hpre.length_le⟩
  string s t port data tmp hlen hs := by
    rw [hstring] at hs
    cases hs

section Entries

def sampleId : Identifier := ⟨Vector.replicate 32 7⟩

/-- One frame of each kind, as `rmp_serde` writes it. -/
def sampleTable : List (Parts × Bytes) :=
  [(.bind 80, [0x81, 0x00, 0x50]), (.error .notBound, [0x81, 0x02, 0x81, 0x01, 0xc0]),
    (.data sampleId.text 7 [1, 255],
      [0x81, 0x01, 0x93] ++ writeIdentifier sampleId ++ [0x07, 0x92, 0x01, 0xcc, 0xff])]

theorem sampleTable_prefixFree : PrefixFree sampleTable := by decide +kernel

def wideTable : List (Parts × Bytes) :=
  [(.bind 80, [0x81, 0x00, 0x50]), (.bind 80, [0x81, 0x00, 0xcd, 0x00, 0x50])]

theorem wideTable_prefixFree : PrefixFree wideTable := by decide

theorem wideTable_lenient : (RmpSerde.ofTable wideTable).Lenient :=
  wideTable_prefixFree.lenient (by decide) fun _ _ _ => rfl

end Entries

end Table

end Uip.Unix
