import Uip.TransportCodec
import Uip.TransitionSystem
import Mathlib.Data.List.Perm.Subperm

/-!
# Frames over a lossy link

The write task sends one frame after another, and each goes out as one DTLS record. Records are
lost and overtake one another; the session gives the bytes of an arrived record to the reader in
pieces of any size. `Record.frame`, `Link.written` and `Link.arrived` record what happened; no step
reads them.
-/
namespace Uip.Transport
open TransitionSystem StreamDecoder Codec

def maxRecord : ℕ := 16384

structure Record where
  frame : Frame
  bytes : Bytes
  deriving DecidableEq

/-- `FramedWrite` with its buffer and `FramedRead` with its own, and the records in between;
`record` is what the session still has of the record that arrived last. -/
structure Link where
  writeHalf : Bytes
  writeTask : Bool
  flight : List Record
  record : Bytes
  readHalf : Bytes
  stop : Stop Error
  decoded : List Frame
  written : List Frame
  arrived : List Frame

inductive LinkEvent
  | send (frame : Frame)
  | lose (i : ℕ)
  | arrive (i : ℕ)
  | read (length : ℕ)
  deriving DecidableEq

namespace Link

def new : Link := ⟨[], true, [], [], [], .more, [], [], []⟩

/-- `write_half.send(frame)`: the frame is put into the buffer and the buffer goes out. The session
refuses more than one record can carry, which ends the write task. -/
def send (s : Link) (frame : Frame) : Link :=
  match encode frame s.writeHalf with
  | .error _ => { s with writeTask := false }
  | .ok buffer =>
    if buffer.length ≤ maxRecord then
      { s with
        writeHalf := []
        flight := s.flight ++ [⟨frame, buffer⟩]
        written := s.written ++ [frame] }
    else { s with writeHalf := buffer, writeTask := false }

def arrive (s : Link) (i : ℕ) : Link :=
  match s.flight[i]? with
  | none => s
  | some record =>
    { s with
      flight := s.flight.eraseIdx i
      record := record.bytes
      arrived := s.arrived ++ [record.frame] }

/-- One read of the session into the buffer, and the calls of `decode` after it. -/
def read (s : Link) (length : ℕ) : Link :=
  let drained := drain decode (s.readHalf ++ s.record.take length)
  { s with
    record := s.record.drop length
    readHalf := drained.rest
    stop := drained.stop
    decoded := s.decoded ++ drained.frames }

def enabled (s : Link) : LinkEvent → Prop
  | .send _ => s.writeTask = true
  | .lose i => i < s.flight.length
  | .arrive i => i < s.flight.length ∧ s.record = [] ∧ s.stop = .more
  | .read length => 0 < length ∧ length ≤ s.record.length ∧ s.stop = .more

instance (s : Link) (e : LinkEvent) : Decidable (s.enabled e) := by
  cases e <;> dsimp only [enabled] <;> infer_instance

def next (s : Link) : LinkEvent → Link
  | .send frame => s.send frame
  | .lose i => { s with flight := s.flight.eraseIdx i }
  | .arrive i => s.arrive i
  | .read length => s.read length

end Link

def linkMachine : Machine Link LinkEvent := guarded (· = Link.new) Link.enabled Link.next

namespace Link

variable {s : Link} {e : LinkEvent}

/-- What has arrived is decoded, but for a frame that the reader has a part of. -/
inductive Reads (arrived decoded : List Frame) (readHalf record : Bytes) : Prop
  | between (all : decoded = arrived) (empty : readHalf = []) (read : record = [])
  | inside (frame : Frame) (bounded : Bounded frame) (last : arrived = decoded ++ [frame])
      (whole : readHalf ++ record = encoding frame) (rest : record ≠ [])

/-- The invariant of a link: each record is the encoding of one frame, and the reader is between
two records or inside one. -/
structure Sound (s : Link) : Prop where
  writeHalf : s.writeTask = true → s.writeHalf = []
  records : ∀ r ∈ s.flight, r.bytes = encoding r.frame ∧ Bounded r.frame
  stop : s.stop = .more
  reads : Reads s.arrived s.decoded s.readHalf s.record
  once : (s.arrived ++ s.flight.map Record.frame).Subperm s.written

theorem Sound.new : Link.new.Sound where
  writeHalf _ := rfl
  records := by simp [Link.new]
  stop := rfl
  reads := .between rfl rfl rfl
  once := List.Subperm.refl _

theorem bounded_of_record {frame : Frame} (h : (encoding frame).length ≤ maxRecord) :
    Bounded frame := by
  cases frame with
  | ping => trivial
  | pong => trivial
  | data srcPort dstPort data =>
    rw [encoding_data, List.length_append] at h
    change data.length ≤ 65535
    unfold maxRecord at h
    omega

theorem Sound.send (h : s.Sound) {frame : Frame} (he : s.writeTask = true) :
    (s.send frame).Sound := by
  have hencode : encode frame s.writeHalf = .ok (encoding frame) := by
    rw [h.writeHalf he, encode_eq, List.nil_append]
  unfold Link.send
  rw [hencode]
  by_cases hlen : (encoding frame).length ≤ maxRecord
  · simp only [hlen, if_true]
    refine ⟨fun _ => rfl, fun r hr => ?_, h.stop, h.reads, ?_⟩
    · rcases List.mem_append.mp hr with hr | hr
      · exact h.records r hr
      · obtain rfl := List.mem_singleton.mp hr
        exact ⟨rfl, bounded_of_record hlen⟩
    · rw [List.map_append, ← List.append_assoc]
      exact h.once.append (List.Subperm.refl _)
  · simp only [hlen, if_false]
    exact ⟨by simp, h.records, h.stop, h.reads, h.once⟩

theorem Sound.lose (h : s.Sound) (i : ℕ) : (s.next (.lose i)).Sound := by
  have hsub : (s.flight.eraseIdx i).Sublist s.flight := List.eraseIdx_sublist ..
  have hmap := hsub.map Record.frame
  exact ⟨h.writeHalf, fun r hr => h.records r (hsub.subset hr), h.stop, h.reads,
    (hmap.append_left s.arrived).subperm.trans h.once⟩

theorem Sound.arrive (h : s.Sound) {i : ℕ} (he : s.enabled (.arrive i)) : (s.arrive i).Sound := by
  obtain ⟨hi, hrecord, hstop⟩ := he
  have hget : s.flight[i]? = some s.flight[i] := List.getElem?_eq_getElem hi
  have hsub : (s.flight.eraseIdx i).Sublist s.flight := List.eraseIdx_sublist ..
  obtain ⟨hbytes, hbounded⟩ := h.records s.flight[i] (List.getElem_mem hi)
  obtain ⟨hall, hempty⟩ : s.decoded = s.arrived ∧ s.readHalf = [] := by
    cases h.reads with
    | between all empty read => exact ⟨all, empty⟩
    | inside frame bounded last whole rest => exact absurd hrecord rest
  unfold Link.arrive
  rw [hget]
  refine ⟨h.writeHalf, fun r hr => h.records r (hsub.subset hr), hstop, ?_, ?_⟩
  · refine .inside s.flight[i].frame hbounded (by rw [hall]) ?_ ?_
    · simp only [hempty, List.nil_append]
      exact hbytes
    · have hpos := encoding_length_pos s.flight[i].frame
      rw [← hbytes] at hpos
      exact List.ne_nil_of_length_pos hpos
  · have hperm : (s.flight[i] :: s.flight.eraseIdx i).Perm s.flight :=
      List.getElem_cons_eraseIdx_perm hi
    have hmap := hperm.map Record.frame
    rw [List.map_cons] at hmap
    simp only [List.append_assoc, List.singleton_append]
    exact (hmap.append_left s.arrived).subperm.trans h.once

theorem Sound.read (h : s.Sound) {length : ℕ} (he : s.enabled (.read length)) :
    (s.read length).Sound := by
  obtain ⟨hpos, hle, hstop⟩ := he
  cases h.reads with
  | between all empty read =>
    rw [read] at hle
    simp at hle
    omega
  | inside frame bounded last whole rest =>
    have hcut : (s.readHalf ++ s.record.take length) ++ s.record.drop length = encoding frame := by
      rw [List.append_assoc, List.take_append_drop, whole]
    by_cases hlast : s.record.drop length = []
    · rw [hlast, List.append_nil] at hcut
      have hdrain : drain decode (s.readHalf ++ s.record.take length) = ⟨[frame], .more, []⟩ := by
        rw [hcut]
        exact drain_encoding bounded
      refine ⟨h.writeHalf, h.records, ?_, .between ?_ ?_ hlast, h.once⟩
      · simp only [Link.read, hdrain]
      · simp only [Link.read, hdrain, last]
      · simp only [Link.read, hdrain]
    · have hframe : decode ((s.readHalf ++ s.record.take length) ++ s.record.drop length) =
          some (.ok (some frame), []) := by
        rw [hcut, ← List.append_nil (encoding frame)]
        exact decode_encoding bounded []
      have hdrain := decode_incremental.drain_part hframe hlast
      refine ⟨h.writeHalf, h.records, ?_, .inside frame bounded ?_ ?_ hlast, h.once⟩
      · simp only [Link.read, hdrain]
      · simp only [Link.read, hdrain, List.append_nil, last]
      · simp only [Link.read, hdrain]
        exact hcut

theorem Sound.next (h : s.Sound) (he : s.enabled e) : (s.next e).Sound := by
  cases e with
  | send frame => exact h.send he
  | lose i => exact h.lose i
  | arrive i => exact h.arrive he
  | read length => exact h.read he

theorem Sound.of_reachable (h : Reachable linkMachine s) : s.Sound :=
  h.guarded_induct (fun _ hs => hs ▸ .new) fun _ _ hs he => hs.next he

end Link

end Uip.Transport
