import Uip.Uipcat
import Uip.UnixIdleClient

/-!
# Connecting with uipcat

`connect` writes a data frame for whatever `read_line` returns, at the end of its input too, and
never a frame that binds a port. The daemon lets a client go whose first frame does not bind one.
-/
namespace Uip
open TransitionSystem Transport

namespace UnixServer

variable {s : UnixServer} {e : UnixEvent} {k : ℕ}

/-- A client is bound to the port that it has asked for, and a frame is sent for none that is not
bound. -/
structure Answers (s : UnixServer) : Prop where
  asked : ∀ k p, s.unix.bound k = some p → (s.streams k).client.Asks p
  sending : ∀ k, (s.streams k).sending ≠ none → s.unix.bound k ≠ none

theorem Answers.new : UnixServer.new.Answers where
  asked k p h := by cases h
  sending k h := absurd rfl h

theorem asks_next {p : UInt16} (e : UnixEvent) (h : (s.streams k).client.Asks p) :
    ((s.next e).streams k).client.Asks p := by
  rw [next_client_eq]
  split_ifs
  · cases e with
    | write j item =>
      have hne : (s.streams k).client.written ≠ [] := by
        intro hnil
        simp [LocalClient.Asks, hnil] at h
      rwa [LocalClient.Asks, LocalClient.after, List.head?_append_of_ne_nil _ hne]
    | _ => exact h
  · exact h

theorem sending_of_next (he : s.enabled e) (h : ((s.next e).streams k).sending ≠ none) :
    (s.streams k).sending ≠ none ∨ s.reads k := by
  by_cases hs : e.stream = some k
  · cases e with
    | read j item =>
      obtain rfl := Option.some.inj hs
      exact .inr he.1
    | first j item =>
      obtain rfl := Option.some.inj hs
      refine .inl ?_
      simp only [next, modify, Function.update_self, UnixStream.start] at h
      split at h <;> exact h
    | sent j tuple =>
      obtain rfl := Option.some.inj hs
      simp [next, modify] at h
    | connect j | write j | close j | takeFrame j | written j | writeFailed j | channelClosed j
    | handed j =>
      obtain rfl := Option.some.inj hs
      exact .inl (by simpa [next, modify] using h)
    | _ => exact .inl h
  · rw [next_stream s e hs] at h
    exact .inl h

theorem Answers.next (h : s.Answers) (ho : s.Orderly) (he : s.enabled e) : (s.next e).Answers where
  asked k p hp := by
    rcases (next_bound ho.unix he).mp hp with rfl | hold
    · have hfirst := (ho.first_item he rfl).1
      rw [LocalClient.Asks, next_client _ _ _ (by simp [UnixEvent.client]), ← hfirst]
      rfl
    · exact asks_next e (h.asked k p hold)
  sending k hk := by
    have hbound : ∃ p, s.unix.bound k = some p := by
      rcases sending_of_next he hk with hold | ⟨p, hp, _⟩
      · exact Option.ne_none_iff_exists'.mp (h.sending k hold)
      · exact ⟨p, hp⟩
    obtain ⟨p, hp⟩ := hbound
    rw [(next_bound ho.unix he).mpr (.inr hp)]
    exact Option.some_ne_none p

theorem Answers.of_reachable (h : Reachable unixMachine s) : s.Answers := by
  refine (h.guarded_induct (P := fun s => s.Answers ∧ s.Orderly) (fun s hs => ?_)
    fun s e hs he => ⟨hs.1.next hs.2 he, hs.2.next he⟩).1
  rw [show s = UnixServer.new from hs]
  exact ⟨.new, .new⟩

end UnixServer

def UnixEvent.passes (k : ℕ) : UnixEvent → Option Delivery
  | .sent j tuple => if j = k then some tuple else none
  | _ => none

/-- The tuples that the read task of the client passes upstream in a run. -/
def upstream (r : Run unixMachine) (k : ℕ) : List Delivery :=
  (r.transitions.map Transition.label).filterMap (UnixEvent.passes k)

theorem bound_of_mem (r : Run unixMachine) {x : Transition UnixServer UnixEvent}
    (hx : x ∈ r.transitions) {k : ℕ} {p : UInt16} (h : x.source.unix.bound k = some p) :
    r.final.unix.bound k = some p := by
  have hkept := r.path.relates (R := fun s t => s.unix.bound k = some p → t.unix.bound k = some p)
    ?_ ?_ ?_ x hx
  · exact hkept.1 h
  · exact fun _ => id
  · intro s t u hst htu hs
    exact htu (hst hs)
  · intro y hy hp
    obtain ⟨he, hnext⟩ := guarded_step.mp (r.path.step_of_mem hy)
    have hvalid := (UnixServer.Orderly.of_reachable (r.reachable_of_mem hy).1).unix
    rw [← hnext]
    exact (UnixServer.next_bound hvalid he).mpr (.inr hp)

theorem refused (r : Run unixMachine) {k : ℕ} (h : ∀ p, ¬ (r.final.streams k).client.Asks p) :
    r.final.unix.bound k = none ∧ upstream r k = [] := by
  have hbound : ∀ p, r.final.unix.bound k ≠ some p := fun p hp =>
    h p ((UnixServer.Answers.of_reachable r.reachable).asked k p hp)
  refine ⟨Option.eq_none_iff_forall_ne_some.mpr hbound, List.filterMap_eq_nil_iff.mpr ?_⟩
  intro e he
  obtain ⟨x, hx, rfl⟩ := List.mem_map.mp he
  have hen := (guarded_step.mp (r.path.step_of_mem hx)).1
  cases hlabel : x.label with
  | sent j tuple =>
    refine if_neg ?_
    rintro rfl
    rw [hlabel] at hen
    have hsending := (UnixServer.Answers.of_reachable (r.reachable_of_mem hx).1).sending j
      (by rw [hen.1]; simp)
    obtain ⟨p, hp⟩ := Option.ne_none_iff_exists'.mp hsending
    exact hbound p (bound_of_mem r hx hp)
  | _ => rfl

end Uip

namespace Uip.Uipcat
open Unix TransitionSystem StreamDecoder

def asBytes (string : Text) : Bytes := string.flatMap String.utf8EncodeChar

inductive ReadLine
  | ok (input : Text)
  | err

inductive WriteResult
  | whole
  | part (n : ℕ)
  | err

/-- `status` is `reading` while the loop goes on. -/
structure Connected where
  written : Bytes
  status : Status
  deriving DecidableEq

section Connect
variable (rmp : RmpSerde) (remoteId : Identifier) (port : UInt16)

def dataFrame (input : Text) : Frame := .data remoteId port (asBytes input)

/-- One round of the loop. -/
def connectRound (written : Bytes) (read : ReadLine) (write : WriteResult) : Connected :=
  match read with
  | .err => ⟨written, .returned⟩
  | .ok input =>
    match rmp.serialize (dataFrame remoteId port input).parts with
    | none => ⟨written, .panicked⟩
    | some buf =>
      match write with
      | .whole => ⟨written ++ buf, .reading⟩
      | .part n => ⟨written ++ buf.take n, .reading⟩
      | .err => ⟨written, .panicked⟩

def connect (reads : ℕ → ReadLine) (writes : ℕ → WriteResult) : ℕ → Connected
  | 0 => ⟨[], .reading⟩
  | n + 1 =>
    match connect reads writes n with
    | ⟨written, .reading⟩ => connectRound rmp remoteId port written (reads n) (writes n)
    | ended => ended

end Connect

/-- At the end of the file `read_line` returns no byte, and no error. -/
def input (lines : List Text) (n : ℕ) : Text := (lines[n]?).getD []

def stdin (lines : List Text) (n : ℕ) : ReadLine := .ok (input lines n)

def inputs (lines : List Text) (n : ℕ) : List Text := (List.range n).map (input lines)

theorem inputs_succ (lines : List Text) (n : ℕ) :
    inputs lines (n + 1) = inputs lines n ++ [input lines n] := by
  simp [inputs, List.range_succ]

theorem inputs_add (lines : List Text) (m : ℕ) :
    inputs lines (lines.length + m) = lines ++ List.replicate m [] := by
  apply List.ext_getElem
  · simp [inputs]
  · intro i h₁ h₂
    simp only [inputs, List.getElem_map, List.getElem_range, input]
    by_cases hi : i < lines.length
    · simp [List.getElem_append_left hi, hi]
    · rw [List.getElem_append_right (Nat.le_of_not_lt hi)]
      simp [List.getElem?_eq_none (Nat.le_of_not_lt hi)]

def readItems (drained : Drained UInt8 Frame Error) : List ReadItem :=
  drained.frames.map .frame ++
    match drained.stop with
    | .error _ => [.error]
    | _ => []

/-- The items of the client are what a read half yields of the bytes, in whatever chunks they
arrive and up to some point. -/
def Plays (rmp : RmpSerde) (written : Bytes) (client : LocalClient) : Prop :=
  ∃ chunks : List Bytes, chunks.flatten <+: written ∧
    client.written <+: readItems (feed (decode rmp) chunks [])

variable {rmp : RmpSerde} {remoteId : Identifier} {port : UInt16} {lines : List Text}
  {writes : ℕ → WriteResult}

theorem encodeAll_append {frames : List Frame} {frame : Frame} {buf bytes tmp : Bytes}
    (h : encodeAll rmp frames buf = .ok bytes) (hs : rmp.serialize frame.parts = some tmp) :
    encodeAll rmp (frames ++ [frame]) buf = .ok (bytes ++ tmp) := by
  rw [encodeAll, List.foldlM_append]
  rw [encodeAll] at h
  rw [h]
  simp [encode, hs, bind, Except.bind, pure, Except.pure]

theorem connect_status (n : ℕ) :
    (connect rmp remoteId port (stdin lines) writes n).status ≠ .returned := by
  induction n with
  | zero => simp [connect]
  | succ n ih =>
    rw [connect]
    split
    · rw [stdin, connectRound]
      split
      · simp
      · split <;> simp
    · exact ih

/-- The bytes that have been written are those of the frames for what was read so far. -/
theorem connect_written (hw : ∀ i x, writes i ≠ .part x) (n : ℕ) : ∃ m,
    encodeAll rmp ((inputs lines m).map (dataFrame remoteId port)) [] =
      .ok (connect rmp remoteId port (stdin lines) writes n).written ∧
    ((connect rmp remoteId port (stdin lines) writes n).status = .reading → m = n) := by
  induction n with
  | zero => exact ⟨0, rfl, fun _ => rfl⟩
  | succ n ih =>
    obtain ⟨m, hbytes, hm⟩ := ih
    rw [connect]
    split
    · next written hc =>
      rw [hc] at hbytes hm
      obtain rfl := hm rfl
      rw [stdin, connectRound]
      split
      · exact ⟨m, hbytes, by simp⟩
      · next buf hs =>
        split
        · refine ⟨m + 1, ?_, fun _ => rfl⟩
          rw [inputs_succ, List.map_append]
          exact encodeAll_append hbytes hs
        · next x hx => exact absurd hx (hw m x)
        · exact ⟨m, hbytes, by simp⟩
    · next hne =>
      refine ⟨m, hbytes, fun hreading => ?_⟩
      exact (hne _ (by rw [← hreading])).elim

theorem connect_goes_on (hs : ∀ line ∈ [] :: lines,
      rmp.serialize (dataFrame remoteId port line).parts ≠ none) (n : ℕ) :
    (connect rmp remoteId port (stdin lines) (fun _ => .whole) n).status = .reading := by
  induction n with
  | zero => rfl
  | succ n ih =>
    have hline : input lines n ∈ [] :: lines := by
      unfold input
      cases hl : lines[n]? with
      | none => exact List.mem_cons_self
      | some line => exact List.mem_cons_of_mem _ (List.mem_of_getElem? hl)
    obtain ⟨buf, hbuf⟩ := Option.ne_none_iff_exists'.mp (hs _ hline)
    rw [connect]
    split
    · rw [stdin, connectRound, hbuf]
    · next hne => exact (hne _ (by rw [← ih])).elim

section Reading

theorem first_of_drain {chunk : Bytes} {frame : Frame} {frames : List Frame}
    (h : (drain (decode rmp) chunk).frames = frame :: frames) (chunks : List Bytes) :
    (readItems (feed (decode rmp) (chunk :: chunks) [])).head? = some (.frame frame) := by
  rw [feed, List.nil_append]
  split
  · next read rest heq =>
    rw [heq] at h
    simp [readItems, Drained.prepend, show read = _ from h]
  · simp [readItems, h]

theorem first_item (h : rmp.Inverts) (ht : rmp.RejectsTruncated) {frame : Frame} {buf bytes : Bytes}
    (hs : rmp.serialize frame.parts = some buf) (hbuf : buf <+: bytes) {chunks : List Bytes}
    (hc : chunks.flatten <+: bytes) {f : Frame}
    (hf : (readItems (feed (decode rmp) chunks [])).head? = some (.frame f)) : f = frame := by
  induction chunks with
  | nil => cases hf
  | cons chunk chunks ih =>
    by_cases hnil : chunk = []
    · subst hnil
      rw [feed_more (drain_more decode_nil)] at hf
      exact ih hc hf
    · have hchunk : chunk <+: bytes := (List.prefix_append chunk chunks.flatten).trans hc
      by_cases hwhole : buf <+: chunk
      · obtain ⟨rest, rfl⟩ := hwhole
        have hdrain : (drain (decode rmp) (buf ++ rest)).frames =
            frame :: (drain (decode rmp) rest).frames := by
          rw [drain_frame (decode_progress h) (decode_serialized h hs rest)]
          rfl
        rw [first_of_drain hdrain chunks] at hf
        exact (ReadItem.frame.inj (Option.some.inj hf)).symm
      · have hpart : chunk <+: buf :=
          (List.prefix_or_prefix_of_prefix hchunk hbuf).resolve_right hwhole
        have hproper : chunk ≠ buf := fun heq => hwhole (heq ▸ List.prefix_rfl)
        rw [feed, List.nil_append, drain_error (decode_part ht hs hpart hproper hnil)] at hf
        cases hf

theorem no_item {chunks : List Bytes} (hc : chunks.flatten = []) :
    readItems (feed (decode rmp) chunks []) = [] := by
  induction chunks with
  | nil => rfl
  | cons chunk chunks ih =>
    obtain ⟨rfl, hrest⟩ := List.append_eq_nil_iff.mp hc
    rw [feed_more (drain_more decode_nil)]
    exact ih hrest

theorem Plays.not_asks (h : rmp.Inverts) (ht : rmp.RejectsTruncated) {texts : List Text}
    {written : Bytes} (hw : encodeAll rmp (texts.map (dataFrame remoteId port)) [] = .ok written)
    {client : LocalClient} (hp : Plays rmp written client) (srcPort : UInt16) :
    ¬ client.Asks srcPort := by
  intro hasks
  obtain ⟨chunks, hc, hitems⟩ := hp
  have hfirst :
      (readItems (feed (decode rmp) chunks [])).head? = some (.frame (.bind srcPort)) := by
    obtain ⟨rest, hrest⟩ := hitems
    rw [← hrest, List.head?_append, show client.written.head? = _ from hasks]
    rfl
  obtain ⟨hall, hflat⟩ := encodeAll_eq_ok.mp hw
  cases texts with
  | nil =>
    rw [hflat] at hc
    rw [no_item (List.prefix_nil.mp hc)] at hfirst
    cases hfirst
  | cons text texts =>
    have hs := hall (dataFrame remoteId port text) List.mem_cons_self
    rw [List.nil_append, List.map_cons, List.flatMap_cons] at hflat
    cases first_item h ht hs (hflat ▸ List.prefix_append _ _) hc hfirst

end Reading

/-- `connect` does not return and goes on with empty frames after the end of the file, and the
daemon neither binds it nor passes anything upstream. -/
theorem connect_never_agrees (h : rmp.Inverts) (ht : rmp.RejectsTruncated)
    (remoteId : Identifier) (port : UInt16) (lines : List Text) :
    (∀ writes n, (connect rmp remoteId port (stdin lines) writes n).status ≠ .returned) ∧
    ((∀ line ∈ [] :: lines, rmp.serialize (dataFrame remoteId port line).parts ≠ none) →
      ∀ m, ∃ bytes, connect rmp remoteId port (stdin lines) (fun _ => .whole) (lines.length + m) =
          ⟨bytes, .reading⟩ ∧
        encodeAll rmp ((lines ++ List.replicate m []).map (dataFrame remoteId port)) [] =
          .ok bytes) ∧
    ∀ writes n, (∀ i x, writes i ≠ .part x) → ∀ (r : Run unixMachine) k,
      Plays rmp (connect rmp remoteId port (stdin lines) writes n).written
        (r.final.streams k).client →
      r.final.unix.bound k = none ∧ upstream r k = [] := by
  refine ⟨fun writes n => connect_status n, fun hs m => ?_, fun writes n hw r k hp => ?_⟩
  · have hstatus := connect_goes_on hs (lines.length + m)
    obtain ⟨rounds, hbytes, hrounds⟩ := @connect_written rmp remoteId port lines (fun _ => .whole)
      (by simp) (lines.length + m)
    obtain rfl := hrounds hstatus
    rw [inputs_add] at hbytes
    exact ⟨_, by rw [← hstatus], hbytes⟩
  · obtain ⟨rounds, hbytes, -⟩ := connect_written hw n
    exact refused r fun srcPort => hp.not_asks h ht hbytes srcPort

section Hello

def hello : Text := "hi\n".toList

def helloTable : List (Parts × Bytes) :=
  [((dataFrame sampleId 7 hello).parts,
      [0x81, 0x01, 0x93] ++ writeIdentifier sampleId ++ [0x07, 0x93, 0x68, 0x69, 0x0a]),
    ((dataFrame sampleId 7 []).parts,
      [0x81, 0x01, 0x93] ++ writeIdentifier sampleId ++ [0x07, 0x90])]

theorem helloTable_prefixFree : PrefixFree helloTable := by decide +kernel

/-- uipcat connects, its first frame arrives, and the daemon handles it. -/
def helloEvents : List UnixEvent :=
  [.connect 0, .write 0 (.frame (dataFrame sampleId 7 hello)), .accept 0,
    .first 0 (some (.frame (dataFrame sampleId 7 hello)))]

def helloConnect (n : ℕ) : Connected :=
  connect (.ofTable helloTable) sampleId 7 (stdin [hello]) (fun _ => .whole) n

theorem hello_plays {client : LocalClient}
    (h : client.written = [.frame (dataFrame sampleId 7 hello)]) :
    Plays (.ofTable helloTable) (helloConnect 1).written client := by
  refine ⟨[(helloConnect 1).written], by simp, ?_⟩
  rw [h]
  decide +kernel

theorem connect_never_agrees_hello : ∃ r : Run unixMachine,
    Plays (.ofTable helloTable) (helloConnect 1).written (r.final.streams 0).client ∧
    r.final.unix.bound 0 = none ∧ upstream r 0 = [] := by
  obtain ⟨r, _, _, hp⟩ := exec_final (M := unixMachine) rfl helloEvents
    (p := fun s => decide ((s.streams 0).client.written = [.frame (dataFrame sampleId 7 hello)]))
    (by decide +kernel)
  have hplays := hello_plays (of_decide_eq_true hp)
  exact ⟨r, hplays, (connect_never_agrees helloTable_prefixFree.inverts
    helloTable_prefixFree.rejectsTruncated sampleId 7 [hello]).2.2 (fun _ => .whole) 1 (by simp)
    r 0 hplays⟩

/-- One line: the daemon lets uipcat go at its frame, and uipcat writes two empty frames more. -/
theorem connect_refused : ∃ rmp : RmpSerde, rmp.Inverts ∧ rmp.RejectsTruncated ∧
    encodeAll rmp ([hello, [], []].map (dataFrame sampleId 7)) [] =
      .ok (connect rmp sampleId 7 (stdin [hello]) (fun _ => .whole) 3).written ∧
    (connect rmp sampleId 7 (stdin [hello]) (fun _ => .whole) 3).status = .reading ∧
    ∃ r : Run unixMachine,
      Plays rmp (connect rmp sampleId 7 (stdin [hello]) (fun _ => .whole) 1).written
        (r.final.streams 0).client ∧
      r.final.unix.clients 0 = .closed ∧ upstream r 0 = [] := by
  obtain ⟨r, _, hlabels, hp⟩ := exec_final (M := unixMachine) rfl helloEvents
    (p := fun s => decide ((s.streams 0).client.written = [.frame (dataFrame sampleId 7 hello)] ∧
      s.unix.clients 0 = .closed)) (by decide +kernel)
  obtain ⟨hwritten, hclosed⟩ := of_decide_eq_true hp
  refine ⟨.ofTable helloTable, helloTable_prefixFree.inverts,
    helloTable_prefixFree.rejectsTruncated, by decide +kernel, by decide +kernel, r,
    hello_plays hwritten, hclosed, ?_⟩
  rw [upstream, hlabels]
  rfl

end Hello

end Uip.Uipcat
