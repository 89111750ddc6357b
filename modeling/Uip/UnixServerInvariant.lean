import Uip.UnixServer
import Uip.WorldInvariant

/-! What a step changes at the state of the control socket and at the streams of the clients, and
the invariant of the server. -/
namespace Uip
open TransitionSystem Transport

def binds (srcPort : UInt16) : Option ReadItem := some (.frame (.bind srcPort))

def bindEvents (k : ℕ) (srcPort : UInt16) : List UnixEvent :=
  [.connect k, .write k (.frame (.bind srcPort)), .accept k, .first k (binds srcPort)]

namespace UnixState

variable {u : UnixState}

theorem mem_usedPorts {p : UInt16} : p ∈ u.usedPorts ↔ ∃ k, u.connections.lookup p = some k := by
  rw [usedPorts, ← AList.mem_keys, ← AList.lookup_isSome, Option.isSome_iff_exists]

theorem Valid.first (h : u.Valid) {k : ℕ} (handling : u.handling = some k)
    (item : Option ReadItem) : (u.first k item).Valid := by
  match item with
  | some (.frame frame) => exact h.handleNewStream handling frame
  | some .error => exact h.endOfStream (.inl handling)
  | none => exact h.endOfStream (.inl handling)

theorem first_of_not_binds (h : u.Valid) {k : ℕ} (handling : u.handling = some k)
    {item : Option ReadItem} (hitem : ∀ p, item ≠ binds p) :
    u.first k item = { u.setClient k .closed with handling := none } := by
  have hk := (h.waiting k (by simp [UnixState.waiting, handling])).1
  cases item with
  | none => simp [UnixState.first, endOfStream, hk]
  | some read =>
    cases read with
    | error => simp [UnixState.first, endOfStream, hk]
    | frame frame =>
      cases frame with
      | bind p => exact absurd rfl (hitem p)
      | data | error => rfl

end UnixState

def UnixEvent.stream : UnixEvent → Option ℕ
  | .connect k | .write k _ | .close k | .first k _ | .read k _ | .sent k _ | .takeFrame k _
  | .written k _ | .writeFailed k _ | .channelClosed k | .handed k _ => some k
  | _ => none

namespace UnixServer

variable {s : UnixServer} {e : UnixEvent} {k : ℕ}

theorem next_unix (s : UnixServer) (e : UnixEvent) : (s.next e).unix = match e with
    | .connect k => { s.unix with nextClient := k + 1, backlog := s.unix.backlog ++ [k] }
    | .accept k => { s.unix with handling := some k, backlog := s.unix.backlog.tail }
    | .first k item => s.unix.first k item
    | .read k item => s.unix.read k item
    | _ => s.unix := by
  cases e <;> rfl

theorem reads_iff : s.reads k ↔ ∃ p, s.unix.clients k = .bound p true :=
  ⟨fun ⟨p, _, hp⟩ => ⟨p, hp⟩, fun ⟨p, hp⟩ => ⟨p, UnixState.bound_of_clients hp, hp⟩⟩

/-- The read task of a bound client ends at anything but data. -/
theorem read_cases (u : UnixState) (k : ℕ) (item : Option ReadItem) :
    (∃ hostId dstPort data, item = some (.frame (.data hostId dstPort data)) ∧
      u.read k item = u) ∨
    (∀ hostId dstPort data, item ≠ some (.frame (.data hostId dstPort data))) ∧
      u.read k item = u.endOfStream k := by
  match item with
  | some (.frame (.data hostId dstPort data)) => exact .inl ⟨hostId, dstPort, data, rfl, rfl⟩
  | some (.frame (.bind _)) | some (.frame (.error _)) | some .error | none =>
    exact .inr ⟨by simp, rfl⟩

theorem start_cases (stream : UnixStream) (item : Option ReadItem) :
    (∃ p, item = binds p) ∨ (∀ p, item ≠ binds p) ∧ stream.start item = stream := by
  match item with
  | some (.frame (.bind p)) => exact .inl ⟨p, rfl⟩
  | some (.frame (.data ..)) | some (.frame (.error _)) | some .error | none =>
    exact .inr ⟨by simp [binds], rfl⟩

theorem endOfStream_nextClient (u : UnixState) (k : ℕ) :
    (u.endOfStream k).nextClient = u.nextClient := by
  unfold UnixState.endOfStream
  split <;> rfl

theorem nextClient_le (he : s.enabled e) : s.unix.nextClient ≤ (s.next e).unix.nextClient := by
  rw [next_unix]
  cases e with
  | connect k => exact Nat.le_succ_of_le he
  | first k item =>
    match item with
    | some (.frame (.bind _)) | some (.frame (.data ..)) | some (.frame (.error _)) => rfl
    | some .error | none => exact Nat.le_of_eq (endOfStream_nextClient _ _).symm
  | read k item =>
    rcases read_cases s.unix k item with ⟨_, _, _, _, hr⟩ | ⟨_, hr⟩
    · exact Nat.le_of_eq (congrArg UnixState.nextClient hr).symm
    · have hsame := (congrArg UnixState.nextClient hr).trans (endOfStream_nextClient s.unix k)
      exact Nat.le_of_eq hsame.symm
  | _ => exact Nat.le_refl _

/-- A port is registered only with the first frame of a client. -/
theorem next_lookup (h : s.unix.Valid) (he : s.enabled e) {p : UInt16} :
    (s.next e).unix.connections.lookup p = some k ↔
      e = .first k (binds p) ∨ (∀ j, e ≠ .first j (binds p)) ∧
        s.unix.connections.lookup p = some k := by
  rw [next_unix]
  cases e with
  | first j item =>
    by_cases hb : ∃ q, item = binds q
    · obtain ⟨q, rfl⟩ := hb
      change (s.unix.connections.insert q j).lookup p = some k ↔ _
      rw [HashMap.lookup_insert_if]
      by_cases hq : p = q
      · subst hq
        simp [eq_comm]
      · simp [hq, binds, Ne.symm hq]
    · push Not at hb
      change (s.unix.first j item).connections.lookup p = some k ↔ _
      rw [UnixState.first_of_not_binds h he.1 hb]
      simp [UnixState.setClient, hb]
  | read j item =>
    have hsame : (s.unix.read j item).connections = s.unix.connections := by
      rcases read_cases s.unix j item with ⟨_, _, _, _, hr⟩ | ⟨_, hr⟩
      · rw [hr]
      · rw [hr, UnixState.endOfStream]
        split <;> rfl
    simp [hsame]
  | _ => simp

theorem next_bound (h : s.unix.Valid) (he : s.enabled e) {p : UInt16} :
    (s.next e).unix.bound k = some p ↔ e = .first k (binds p) ∨ s.unix.bound k = some p := by
  rw [next_unix]
  cases e with
  | first j item =>
    have hj := UnixState.bound_of_connected
      (h.waiting j (by simp [UnixState.waiting, he.1])).1
    by_cases hb : ∃ q, item = binds q
    · obtain ⟨q, rfl⟩ := hb
      change (s.unix.setClient j (.bound q true)).bound k = some p ↔ _
      rw [UnixState.bound_setClient]
      split_ifs with hk
      · subst hk
        simp [hj, binds, Client.port]
      · simp [Ne.symm hk]
    · push Not at hb
      change (s.unix.first j item).bound k = some p ↔ _
      rw [UnixState.first_of_not_binds h he.1 hb]
      change (s.unix.setClient j .closed).bound k = some p ↔ _
      rw [UnixState.bound_setClient]
      split_ifs with hk
      · subst hk
        simp [hj, hb, Client.port]
      · simp [hb]
  | read j item =>
    obtain ⟨q, hq, _⟩ := he.1
    change (s.unix.read j item).bound k = some p ↔ _
    rcases read_cases s.unix j item with ⟨_, _, _, _, hr⟩ | ⟨_, hr⟩
    · simp [hr]
    · rcases UnixState.endOfStream_cases (u := s.unix) (k := j)
        (.inr (Option.isSome_iff_exists.mpr ⟨q, hq⟩)) with ⟨q', hq', hend⟩ | ⟨hj, _⟩
      · rw [hr, hend, UnixState.bound_setClient]
        split_ifs with hk
        · subst hk
          simp [hq', Client.port]
        · simp
      · have hnone := UnixState.bound_of_connected
          (h.waiting j (by simp [UnixState.waiting, hj])).1
        simp [hnone] at hq
  | _ => simp [UnixState.bound]

/-- A read task runs from the first frame of its client until it gets anything but data. -/
theorem next_reading (h : s.unix.Valid) (he : s.enabled e) {p : UInt16} :
    (s.next e).unix.clients k = .bound p true ↔ e = .first k (binds p) ∨
      s.unix.clients k = .bound p true ∧ ∀ item, e = .read k item →
        ∃ hostId dstPort data, item = some (.frame (.data hostId dstPort data)) := by
  rw [next_unix]
  cases e with
  | first j item =>
    have hj := (h.waiting j (by simp [UnixState.waiting, he.1])).1
    by_cases hb : ∃ q, item = binds q
    · obtain ⟨q, rfl⟩ := hb
      change (s.unix.setClient j (.bound q true)).clients k = _ ↔ _
      by_cases hk : k = j
      · subst hk
        simp [hj, binds, UnixState.setClient]
      · simp [hk, Ne.symm hk, UnixState.setClient]
    · push Not at hb
      change (s.unix.first j item).clients k = _ ↔ _
      rw [UnixState.first_of_not_binds h he.1 hb]
      by_cases hk : k = j
      · subst hk
        simp [hj, hb, UnixState.setClient]
      · simp [hk, hb, UnixState.setClient]
  | read j item =>
    obtain ⟨q, hq⟩ := reads_iff.mp he.1
    change (s.unix.read j item).clients k = _ ↔ _
    rcases read_cases s.unix j item with ⟨_, _, _, rfl, hr⟩ | ⟨hdata, hr⟩
    · rw [hr]
      simp
    · rw [hr, UnixState.endOfStream, hq]
      by_cases hk : k = j
      · subst hk
        simp [UnixState.setClient, hdata]
      · simp [hk, Ne.symm hk, UnixState.setClient]
  | _ => simp

theorem next_reads (h : s.unix.Valid) (he : s.enabled e) :
    (s.next e).reads k ↔ (∃ p, e = .first k (binds p)) ∨ s.reads k ∧ ∀ item, e = .read k item →
      ∃ hostId dstPort data, item = some (.frame (.data hostId dstPort data)) := by
  simp only [reads_iff, next_reading h he, exists_or, exists_and_right]

theorem unix_next (h : s.unix.Valid) (he : s.enabled e) : (s.next e).unix.Valid := by
  rw [next_unix]
  cases e with
  | connect k => exact h.connect he
  | accept k =>
    obtain ⟨rest, hrest⟩ := List.head?_eq_some_iff.mp he.2
    simpa [hrest] using h.accept he.1 hrest
  | first k item => exact h.first he.1 item
  | read k item =>
    obtain ⟨p, hp, _⟩ := he.1
    rcases read_cases s.unix k item with ⟨_, _, _, _, hr⟩ | ⟨_, hr⟩
    · change (s.unix.read k item).Valid
      rwa [hr]
    · change (s.unix.read k item).Valid
      rw [hr]
      exact h.endOfStream (.inr (Option.isSome_iff_exists.mpr ⟨p, hp⟩))
  | _ => exact h

theorem next_stream (s : UnixServer) (e : UnixEvent) (hk : e.stream ≠ some k) :
    (s.next e).streams k = s.streams k := by
  cases e with
  | accept | takeUpstream | enqueue | deliver | handFailed => rfl
  | connect j | write j | close j | first j | read j | sent j | takeFrame j | written j
  | writeFailed j | channelClosed j | handed j =>
    have hne : k ≠ j := fun h => hk (congrArg some h.symm)
    exact Function.update_of_ne hne _ _

theorem start_client (stream : UnixStream) (item : Option ReadItem) :
    (stream.start item).client = stream.client := by
  unfold UnixStream.start
  split <;> rfl

theorem send_client (stream : UnixStream) (srcPort : Option UInt16) (item : Option ReadItem) :
    (stream.send srcPort item).client = stream.client := by
  unfold UnixStream.send
  split <;> rfl

theorem send_writeTask (stream : UnixStream) (srcPort : Option UInt16) (item : Option ReadItem) :
    (stream.send srcPort item).writeTask = stream.writeTask := by
  unfold UnixStream.send
  split <;> rfl

theorem next_client (s : UnixServer) (e : UnixEvent) (k : ℕ) (hk : e.client ≠ some k) :
    ((s.next e).streams k).client = (s.streams k).client := by
  by_cases hs : e.stream = some k
  · cases e with
    | connect j | write j | close j => exact absurd hs hk
    | accept | takeUpstream | enqueue | deliver | handFailed => rfl
    | first j item =>
      obtain rfl := Option.some.inj hs
      simp [next, modify, start_client]
    | read j item =>
      obtain rfl := Option.some.inj hs
      simp [next, modify, send_client]
    | sent j | takeFrame j | written j | writeFailed j | channelClosed j | handed j =>
      obtain rfl := Option.some.inj hs
      simp [next, modify]
  · rw [next_stream s e hs]

theorem closed_next (h : (s.streams k).client.closed = true) :
    ((s.next e).streams k).client.closed = true := by
  by_cases hk : e.client = some k
  · cases e with
    | connect j | write j | close j =>
      obtain rfl := Option.some.inj hk
      simp [next, modify, h]
    | _ => simp [UnixEvent.client] at hk
  · rwa [next_client s e k hk]

def writeEnded (s : UnixServer) (k : ℕ) : Prop := (s.streams k).writeTask = .ended

instance (s : UnixServer) (k : ℕ) : Decidable (s.writeEnded k) :=
  inferInstanceAs (Decidable ((s.streams k).writeTask = .ended))

theorem next_writeEnded (he : s.enabled e) : (s.next e).writeEnded k ↔ match e with
    | .first j item => (k = j → ∀ p, item ≠ binds p) ∧ s.writeEnded k
    | .writeFailed j _ | .channelClosed j => k = j ∨ s.writeEnded k
    | _ => s.writeEnded k := by
  by_cases hs : e.stream = some k
  · cases e with
    | first j item =>
      obtain rfl := Option.some.inj hs
      rcases start_cases (s.streams j) item with ⟨p, rfl⟩ | ⟨hitem, hstart⟩
      · simp [next, modify, writeEnded, UnixStream.start, binds]
      · simp [next, modify, writeEnded, hstart, hitem]
    | read j item =>
      obtain rfl := Option.some.inj hs
      simp [next, modify, writeEnded, send_writeTask]
    | connect j | write j | close j | sent j | handed j =>
      obtain rfl := Option.some.inj hs
      simp [next, modify, writeEnded]
    | takeFrame j frame | written j frame =>
      obtain rfl := Option.some.inj hs
      simp [next, modify, writeEnded, he.1]
    | writeFailed j | channelClosed j =>
      obtain rfl := Option.some.inj hs
      simp [next, modify, writeEnded]
    | accept | takeUpstream | enqueue | deliver | handFailed => rfl
  · have hsame : (s.next e).writeEnded k ↔ s.writeEnded k := by
      rw [writeEnded, next_stream s e hs, writeEnded]
    rw [hsame]
    cases e with
    | first j item | writeFailed j | channelClosed j =>
      have hne : k ≠ j := fun h => hs (congrArg some h.symm)
      simp [hne]
    | _ => rfl

end UnixServer

end Uip
