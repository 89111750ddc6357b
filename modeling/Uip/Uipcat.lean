import Uip.UnixFraming

/-!
# Listening with uipcat

`listen` binds a port and reads the socket into a fixed buffer. It takes what one read returns for
one frame and keeps nothing between reads.
-/
namespace Uip.Uipcat
open Unix

def bufferSize : ℕ := 1500

structure Report where
  hostId : Identifier
  remotePort : UInt16
  data : Bytes
  deriving DecidableEq

def Report.frame (r : Report) : Frame := .data r.hostId r.remotePort r.data

/-- How far `listen` came: it waits in `read`, has returned or has panicked. -/
inductive Status
  | reading
  | returned
  | panicked
  deriving DecidableEq

structure Listened where
  written : Bytes
  reports : List Report
  status : Status
  deriving DecidableEq

variable (rmp : RmpSerde)

/-- The loop over what the reads return. -/
def listenLoop : List Bytes → List Report × Status
  | [] => ([], .reading)
  | buf :: reads =>
    match (rmp.fromSlice buf).run with
    | .value (.data hostId remotePort data) =>
      let (reports, status) := listenLoop reads
      (⟨hostId, remotePort, data⟩ :: reports, status)
    | .value _ => ([], .returned)
    | .error | .panic => ([], .panicked)

def listen (port : UInt16) (reads : List Bytes) : Listened :=
  match rmp.serialize (Frame.bind port).parts with
  | none => ⟨[], [], .panicked⟩
  | some buf =>
    let (reports, status) := listenLoop rmp reads
    ⟨buf, reports, status⟩

/-- The reads take the stream that encoding the frames gives. -/
structure Takes (reports : List Report) (reads : List Bytes) : Prop where
  stream : encodeAll rmp (reports.map Report.frame) [] = .ok reads.flatten
  sizes : ∀ buf ∈ reads, buf ≠ [] ∧ buf.length ≤ bufferSize

/-- No frame is read from fewer bytes than it is written to. -/
def Compact : Prop := ∀ bytes (frame : Frame) tmp, (rmp.fromSlice bytes).run = .value frame →
  rmp.serialize frame.parts = some tmp → tmp.length ≤ bytes.length

variable {rmp}

theorem listenLoop_cons {buf : Bytes} {report : Report}
    (h : (rmp.fromSlice buf).run = .value report.frame) (reads : List Bytes) :
    listenLoop rmp (buf :: reads) =
      (report :: (listenLoop rmp reads).1, (listenLoop rmp reads).2) := by
  rw [listenLoop, h]
  rfl

/-- What the loop reports was read from the reads one by one. -/
theorem reads_of_listenLoop {reads : List Bytes} {reports : List Report}
    (h : listenLoop rmp reads = (reports, .reading)) :
    List.Forall₂ (fun report buf => (rmp.fromSlice buf).run = .value report.frame) reports
      reads := by
  induction reads generalizing reports with
  | nil =>
    obtain rfl : reports = [] := (congrArg Prod.fst h).symm
    exact .nil
  | cons buf reads ih =>
    rw [listenLoop] at h
    cases hr : (rmp.fromSlice buf).run with
    | error => simp [hr] at h
    | panic => simp [hr] at h
    | value frame =>
      cases frame with
      | bind port => simp [hr] at h
      | error code => simp [hr] at h
      | data hostId remotePort data =>
        rw [hr] at h
        obtain ⟨rfl, hstatus⟩ := Prod.mk.inj h
        exact .cons hr (ih (Prod.ext rfl hstatus))

theorem listenLoop_of_reads {reads : List Bytes} {reports : List Report}
    (h : List.Forall₂ (fun report buf => (rmp.fromSlice buf).run = .value report.frame) reports
      reads) : listenLoop rmp reads = (reports, .reading) := by
  induction h with
  | nil => rfl
  | cons hbuf _ ih => rw [listenLoop_cons hbuf, ih]

/-- Pieces of the same stream, of which none is shorter, are the same pieces. -/
theorem eq_of_flatten_eq {α : Type*} {xs ys : List (List α)}
    (h : List.Forall₂ (fun x y => x.length ≤ y.length) xs ys) (hf : xs.flatten = ys.flatten) :
    xs = ys := by
  induction h with
  | nil => rfl
  | @cons x y xs ys hle hrest ih =>
    have hlen : xs.flatten.length ≤ ys.flatten.length := by
      clear ih hf
      induction hrest with
      | nil => rfl
      | cons hle _ ih =>
        rw [List.flatten_cons, List.flatten_cons, List.length_append, List.length_append]
        omega
    have hsum := congrArg List.length hf
    rw [List.flatten_cons, List.flatten_cons, List.length_append, List.length_append] at hsum
    rw [List.flatten_cons, List.flatten_cons] at hf
    obtain ⟨rfl, htail⟩ := List.append_inj hf (by omega)
    rw [ih htail]

theorem Takes.serialize {reports : List Report} {reads : List Bytes} (h : Takes rmp reports reads) :
    ∀ report ∈ reports, rmp.serialize report.frame.parts = some (encoding rmp report.frame) :=
  fun _ hr => (encodeAll_eq_ok.mp h.stream).1 _ (List.mem_map_of_mem hr)

theorem Takes.flatten {reports : List Report} {reads : List Bytes} (h : Takes rmp reports reads) :
    (reports.map fun report => encoding rmp report.frame).flatten = reads.flatten := by
  rw [(encodeAll_eq_ok.mp h.stream).2, List.nil_append, List.flatMap_def, List.map_map]
  rfl

theorem Takes.length_le {reports : List Report} {reads : List Bytes} (h : Takes rmp reports reads)
    (hc : Compact rmp) (hreads : List.Forall₂
      (fun report buf => (rmp.fromSlice buf).run = .value report.frame) reports reads) :
    List.Forall₂ (fun x y => x.length ≤ y.length)
      (reports.map fun report => encoding rmp report.frame) reads := by
  rw [List.forall₂_map_left_iff]
  refine ((List.forall₂_and_left reports reads).mpr ⟨h.serialize, hreads⟩).imp
    fun report buf hboth => ?_
  exact hc buf report.frame _ hboth.2 hboth.1

/-- `listen` reports exactly what the daemon sent exactly where each read returns one whole
frame. -/
theorem listen_reports_iff (h : rmp.Inverts) (hc : Compact rmp) {port : UInt16} {bound : Bytes}
    (hb : rmp.serialize (Frame.bind port).parts = some bound) {reports : List Report}
    {reads : List Bytes} (ht : Takes rmp reports reads) :
    listen rmp port reads = ⟨bound, reports, .reading⟩ ↔
      List.Forall₂ (fun report buf => encode rmp report.frame [] = .ok buf) reports reads := by
  have hlisten : listen rmp port reads = ⟨bound, reports, .reading⟩ ↔
      listenLoop rmp reads = (reports, .reading) := by
    rw [listen, hb]
    simp [Prod.ext_iff]
  rw [hlisten]
  constructor
  · intro hl
    have hle := ht.length_le hc (reads_of_listenLoop hl)
    rw [← eq_of_flatten_eq hle ht.flatten, List.forall₂_map_right_iff, List.forall₂_same]
    exact fun report hr => encode_nil_eq_ok.mpr (ht.serialize report hr)
  · intro hall
    apply listenLoop_of_reads
    refine hall.imp fun report buf hbuf => ?_
    have hread := h.inverse _ _ (encode_nil_eq_ok.mp hbuf) []
    rw [List.append_nil] at hread
    rw [hread, run_read]

section Sample

theorem compact_ofTable {entries : List (Frame × Bytes)} {table : List (Parts × Bytes)}
    (htable : table = entries.map fun x => (x.1.parts, x.2))
    (h : ∀ x ∈ entries, (RmpSerde.ofTable table).serialize x.1.parts = some x.2) :
    Compact (.ofTable table) := by
  intro bytes frame tmp hr hs
  have hne : (RmpSerde.ofTable table).fromSlice bytes ≠ .error := by
    intro he
    simp [he, Reader.run] at hr
  obtain ⟨x, hx, hpre, hread⟩ := exists_of_fromSlice hne
  rw [htable] at hx
  obtain ⟨⟨f, b⟩, hentry, rfl⟩ := List.mem_map.mp hx
  rw [hread, run_read] at hr
  obtain rfl := Parsed.value.inj hr
  rw [h _ hentry] at hs
  obtain rfl := Option.some.inj hs
  exact hpre.length_le

def sampleReport : Report := ⟨sampleId, 7, [1, 255]⟩

theorem sampleTable_compact : Compact (.ofTable sampleTable) := by
  have htable : sampleTable = [(Frame.bind 80, [0x81, 0x00, 0x50]),
      (.error .notBound, [0x81, 0x02, 0x81, 0x01, 0xc0]),
      (.data sampleId 7 [1, 255], [0x81, 0x01, 0x93] ++ writeIdentifier sampleId ++
        [0x07, 0x92, 0x01, 0xcc, 0xff])].map fun x => (x.1.parts, x.2) := rfl
  exact compact_ofTable htable (by decide +kernel)

def sampleBytes : Bytes := encoding (.ofTable sampleTable) sampleReport.frame

theorem listen_reports_two :
    listen (.ofTable sampleTable) 80 [sampleBytes, sampleBytes] =
      ⟨[0x81, 0x00, 0x50], [sampleReport, sampleReport], .reading⟩ := by
  have ht : Takes (.ofTable sampleTable) [sampleReport, sampleReport]
      [sampleBytes, sampleBytes] := ⟨by decide +kernel, by decide +kernel⟩
  apply (listen_reports_iff sampleTable_prefixFree.inverts sampleTable_compact
    (by decide +kernel) ht).mpr
  exact .cons (by decide +kernel) (.cons (by decide +kernel) .nil)

/-- Two frames in one read: the second is dropped. A frame in two reads: a panic. -/
theorem listen_loses : ∃ rmp : RmpSerde, rmp.Inverts ∧ Compact rmp ∧
    Takes rmp [sampleReport, sampleReport] [sampleBytes ++ sampleBytes] ∧
    listen rmp 80 [sampleBytes ++ sampleBytes] =
      ⟨[0x81, 0x00, 0x50], [sampleReport], .reading⟩ ∧
    Takes rmp [sampleReport] [sampleBytes.take 60, sampleBytes.drop 60] ∧
    listen rmp 80 [sampleBytes.take 60, sampleBytes.drop 60] =
      ⟨[0x81, 0x00, 0x50], [], .panicked⟩ :=
  ⟨.ofTable sampleTable, sampleTable_prefixFree.inverts, sampleTable_compact,
    ⟨by decide +kernel, by decide +kernel⟩, by decide +kernel,
    ⟨by decide +kernel, by decide +kernel⟩, by decide +kernel⟩

end Sample

end Uip.Uipcat
