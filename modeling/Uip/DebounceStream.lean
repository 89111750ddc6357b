import Uip.NetworkChange
import Mathlib.Data.Nat.Find

/-!
# Debounce over any stream

A poll of the inner stream gives its answer and its next state. `drain` is the loop of `poll_next`
within the window, cut off after `fuel` polls of the inner stream.
-/
namespace Uip.Stream
open TransitionSystem

variable {σ α : Type}

/-- `Poll<Option<I>>`. -/
inductive Answer (α : Type)
  | item (a : α)
  | ended
  | pending
  deriving DecidableEq

def Answer.toOption : Answer α → Option α
  | .item a => some a
  | .ended => none
  | .pending => none

/-- The answer to the poll of the inner stream that comes after `n` others. -/
def answer (poll : σ → Answer α × σ) : ℕ → σ → Answer α
  | 0, s => (poll s).1
  | n + 1, s => answer poll n (poll s).2

/-- The items that are ready are followed by the end of the stream. -/
def EndsAfterItems (poll : σ → Answer α × σ) (s : σ) : Prop :=
  ∃ n, answer poll n s = .ended ∧ ∀ m < n, (answer poll m s).toOption ≠ none

/-- A stream that can deliver only finitely many items before it is pending or has ended, and that
answers `Ready(None)` on every poll after its end. -/
structure FiniteStream (σ α : Type) where
  poll : σ → Answer α × σ
  finite : ∀ s, ∃ n, (answer poll n s).toOption = none
  fused : ∀ s, (poll s).1 = .ended → (poll (poll s).2).1 = .ended

structure Debounce (σ : Type) where
  window : ℕ
  lastTimestamp : ℕ
  inner : σ
  deriving DecidableEq

def debounce (stream : σ) (duration now : ℕ) : Debounce σ := ⟨duration, now, stream⟩

/-- The loop that polls the inner stream until it is pending. -/
def drain (poll : σ → Answer α × σ) : ℕ → σ → Option σ
  | 0, _ => none
  | fuel + 1, s =>
    match poll s with
    | (.item _, s) => drain poll fuel s
    | (.ended, s) => drain poll fuel s
    | (.pending, s) => some s

/-- The items that loop takes from the inner stream. -/
def drained (poll : σ → Answer α × σ) : ℕ → σ → List α
  | 0, _ => []
  | fuel + 1, s =>
    match poll s with
    | (.item a, s) => a :: drained poll fuel s
    | (.ended, s) => drained poll fuel s
    | (.pending, _) => []

namespace Debounce

def elapsed (d : Debounce σ) (now : ℕ) : ℕ := now - d.lastTimestamp

/-- The clock is read at `now`, and at `later` to set the timestamp. -/
def pollNext (poll : σ → Answer α × σ) (fuel now later : ℕ) (d : Debounce σ) :
    Option (Answer α × Debounce σ) :=
  if d.elapsed now > d.window then
    let (answer, inner) := poll d.inner
    some (answer, { d with lastTimestamp := later, inner := inner })
  else (drain poll fuel d.inner).map fun inner => (.pending, { d with inner := inner })

/-- `poll_next` returns, and with `Ready(None)` if the inner stream has ended. -/
def Returns (poll : σ → Answer α × σ) (now later : ℕ) (d : Debounce σ) : Prop :=
  ∃ fuel r, d.pollNext poll fuel now later = some r ∧
    ((poll d.inner).1 = .ended → r.1 = .ended)

end Debounce

/-- The loop stops where the inner stream is pending, and only there. -/
theorem drain_stops_iff (poll : σ → Answer α × σ) (s : σ) :
    (∃ fuel t, drain poll fuel s = some t) ↔ ∃ n, answer poll n s = .pending := by
  constructor
  · rintro ⟨fuel, t, h⟩
    induction fuel generalizing s with
    | zero => cases h
    | succ fuel ih =>
      rw [drain] at h
      cases hp : poll s with
      | mk a u =>
        rw [hp] at h
        have hnext : answer poll 0 s = a ∧ ∀ n, answer poll (n + 1) s = answer poll n u :=
          ⟨congrArg Prod.fst hp, fun n => congrArg (answer poll n) (congrArg Prod.snd hp)⟩
        cases a with
        | item a =>
          obtain ⟨n, hn⟩ := ih u h
          exact ⟨n + 1, (hnext.2 n).trans hn⟩
        | ended =>
          obtain ⟨n, hn⟩ := ih u h
          exact ⟨n + 1, (hnext.2 n).trans hn⟩
        | pending => exact ⟨0, hnext.1⟩
  · rintro ⟨n, h⟩
    induction n generalizing s with
    | zero =>
      refine ⟨1, (poll s).2, ?_⟩
      rw [drain, show poll s = (.pending, (poll s).2) from Prod.ext h rfl]
    | succ n ih =>
      obtain ⟨fuel, t, ht⟩ := ih (poll s).2 h
      cases hp : poll s with
      | mk a u =>
        rw [hp] at ht
        cases a with
        | item a => exact ⟨fuel + 1, t, by rw [drain, hp]; exact ht⟩
        | ended => exact ⟨fuel + 1, t, by rw [drain, hp]; exact ht⟩
        | pending => exact ⟨1, u, by rw [drain, hp]⟩

namespace FiniteStream

variable (stream : FiniteStream σ α)

theorem ended_stays {n : ℕ} {s : σ} (h : answer stream.poll n s = .ended) (k : ℕ) :
    answer stream.poll (n + k) s = .ended := by
  induction n generalizing s with
  | zero =>
    rw [Nat.zero_add]
    induction k generalizing s with
    | zero => exact h
    | succ k ih => exact ih (stream.fused s h)
  | succ n ih =>
    rw [Nat.add_right_comm]
    exact ih h

theorem pending_iff (s : σ) :
    (∃ n, answer stream.poll n s = .pending) ↔ ¬ EndsAfterItems stream.poll s := by
  classical
  constructor
  · rintro ⟨n, hn⟩ ⟨m, hm, hitems⟩
    rcases Nat.lt_or_ge n m with hlt | hge
    · exact hitems n hlt (by rw [hn]; rfl)
    · have hended := stream.ended_stays hm (n - m)
      rw [Nat.add_sub_cancel' hge, hn] at hended
      cases hended
  · intro h
    have hfirst := Nat.find_spec (stream.finite s)
    refine ⟨Nat.find (stream.finite s), ?_⟩
    cases ha : answer stream.poll (Nat.find (stream.finite s)) s with
    | item a => rw [ha] at hfirst; cases hfirst
    | ended => exact absurd ⟨_, ha, fun m hm => Nat.find_min (stream.finite s) hm⟩ h
    | pending => rfl

theorem endsAfterItems_of_ended {s : σ} (h : (stream.poll s).1 = .ended) :
    EndsAfterItems stream.poll s := ⟨0, h, by simp⟩

end FiniteStream

/-- Within the window `poll_next` spins on a stream that has ended. -/
theorem poll_returns_iff (stream : FiniteStream σ α) (d : Debounce σ) (now later : ℕ) :
    d.Returns stream.poll now later ↔
      d.window < d.elapsed now ∨ ¬ EndsAfterItems stream.poll d.inner := by
  by_cases hw : d.window < d.elapsed now
  · refine iff_of_true ⟨0, _, by rw [Debounce.pollNext, if_pos hw], ?_⟩ (.inl hw)
    exact fun h => h
  · have hpoll : ∀ fuel, d.pollNext stream.poll fuel now later =
        (drain stream.poll fuel d.inner).map fun inner => (.pending, { d with inner := inner }) :=
      fun fuel => if_neg hw
    rw [or_iff_right hw, ← stream.pending_iff, ← drain_stops_iff]
    constructor
    · rintro ⟨fuel, r, hr, _⟩
      rw [hpoll] at hr
      obtain ⟨t, ht, _⟩ := Option.map_eq_some_iff.mp hr
      exact ⟨fuel, t, ht⟩
    · intro hstops
      obtain ⟨fuel, t, ht⟩ := hstops
      refine ⟨fuel, _, by rw [hpoll, ht]; rfl, fun he => ?_⟩
      have hpending := (drain_stops_iff stream.poll d.inner).mp ⟨fuel, t, ht⟩
      exact absurd (stream.endsAfterItems_of_ended he) ((stream.pending_iff d.inner).mp hpending)

inductive ReadResult
  | bytes (len : ℕ)
  | error
  deriving DecidableEq

/-- `ReaderStream`, with the reads that do not block yet; an error and the end of the file drop the
reader. -/
def readerPoll : Option (List ReadResult) → Answer Unit × Option (List ReadResult)
  | none => (.ended, none)
  | some [] => (.pending, some [])
  | some (.error :: _) => (.item (), none)
  | some (.bytes 0 :: _) => (.ended, none)
  | some (.bytes (_ + 1) :: reads) => (.item (), some reads)

theorem answer_dropped (n : ℕ) : answer readerPoll n none = .ended := by
  induction n with
  | zero => rfl
  | succ n ih => exact ih

theorem readerPoll_finite (reads : List ReadResult) :
    ∃ n, (answer readerPoll n (some reads)).toOption = none := by
  induction reads with
  | nil => exact ⟨0, rfl⟩
  | cons read reads ih =>
    cases read with
    | error => exact ⟨1, rfl⟩
    | bytes len =>
      cases len with
      | zero => exact ⟨0, rfl⟩
      | succ len =>
        obtain ⟨n, hn⟩ := ih
        exact ⟨n + 1, hn⟩

theorem readerPoll_ended {s : Option (List ReadResult)} (h : (readerPoll s).1 = .ended) :
    (readerPoll s).2 = none := by
  cases s with
  | none => rfl
  | some reads =>
    cases reads with
    | nil => cases h
    | cons read reads =>
      cases read with
      | error => rfl
      | bytes len =>
        cases len with
        | zero => rfl
        | succ len => cases h

def readerStream : FiniteStream (Option (List ReadResult)) Unit where
  poll := readerPoll
  finite s := by
    cases s with
    | none => exact ⟨0, rfl⟩
    | some reads => exact readerPoll_finite reads
  fused s h := by rw [readerPoll_ended h]; rfl

/-- A read of the netlink socket fails one second after the last timestamp. -/
theorem read_error_spins :
    ¬ (debounce (some [.error]) 2000 0).Returns readerStream.poll 1000 1000 := by
  rintro ⟨fuel, r, hr, _⟩
  have hpoll : (debounce (some [.error]) 2000 0).pollNext readerStream.poll fuel 1000 1000 =
      (drain readerPoll fuel (some [.error])).map
        fun inner => (.pending, ⟨2000, 0, inner⟩) := rfl
  rw [hpoll] at hr
  obtain ⟨t, ht, _⟩ := Option.map_eq_some_iff.mp hr
  obtain ⟨n, hn⟩ := (drain_stops_iff readerPoll _).mp ⟨fuel, t, ht⟩
  cases n with
  | zero => cases hn
  | succ n =>
    have hended : answer readerPoll n none = .pending := hn
    rw [answer_dropped] at hended
    cases hended

def countedPoll (items : ℕ) : Answer Unit × ℕ :=
  match Change.pollInner items with
  | (items, .ready) => (.item (), items)
  | (items, .pending) => (.pending, items)

theorem drain_counted (items : ℕ) :
    drain countedPoll (items + 1) items = some (Change.discard items).1 := by
  induction items with
  | zero => rfl
  | succ items ih => exact ih

theorem pollNext_counted (d : Change.Debounce) (now items : ℕ) :
    (Debounce.mk d.window d.lastTimestamp items).pollNext countedPoll (items + 1) now now =
      match d.pollNext now items with
      | (d, items, .ready) => some (.item (), ⟨d.window, d.lastTimestamp, items⟩)
      | (d, items, .pending) => some (.pending, ⟨d.window, d.lastTimestamp, items⟩) := by
  by_cases hw : d.window < d.elapsed now
  · have hpoll : d.pollNext now items =
        ({ d with lastTimestamp := now }, Change.pollInner items) := if_pos hw
    have hstream : (Debounce.mk d.window d.lastTimestamp items).window <
        (Debounce.mk d.window d.lastTimestamp items).elapsed now := hw
    rw [hpoll, Debounce.pollNext, if_pos hstream]
    cases items <;> rfl
  · have hpoll : d.pollNext now items = (d, Change.discard items) := if_neg hw
    have hstream : ¬ (Debounce.mk d.window d.lastTimestamp items).window <
        (Debounce.mk d.window d.lastTimestamp items).elapsed now := hw
    rw [hpoll, Debounce.pollNext, if_neg hstream, drain_counted, Change.Observer.discard_eq]
    rfl

structure Emission (α : Type) where
  item : α
  time : ℕ
  later : ℕ
  deriving DecidableEq

/-- A debounced stream that is polled now and then; no step reads `delivered` and `emitted`. -/
structure Debounced (σ α : Type) where
  debounce : Debounce σ
  now : ℕ
  delivered : List α
  emitted : List (Emission α)

/-- `change` is whatever happens to the inner stream between two polls. -/
inductive Event (σ : Type)
  | advance (time : ℕ)
  | change (inner : σ)
  | poll (delay fuel : ℕ)

def Debounce.delivered (poll : σ → Answer α × σ) (fuel now : ℕ) (d : Debounce σ) : List α :=
  if d.elapsed now > d.window then (poll d.inner).1.toOption.toList else drained poll fuel d.inner

namespace Debounced

def enabled (poll : σ → Answer α × σ) (s : Debounced σ α) : Event σ → Prop
  | .advance _ => True
  | .change _ => True
  | .poll delay fuel => (s.debounce.pollNext poll fuel s.now (s.now + delay)).isSome

instance (poll : σ → Answer α × σ) (s : Debounced σ α) (e : Event σ) :
    Decidable (s.enabled poll e) := by
  cases e <;> dsimp only [enabled] <;> infer_instance

def next (poll : σ → Answer α × σ) (s : Debounced σ α) : Event σ → Debounced σ α
  | .advance time => { s with now := s.now + time }
  | .change inner => { s with debounce := { s.debounce with inner := inner } }
  | .poll delay fuel =>
    match s.debounce.pollNext poll fuel s.now (s.now + delay) with
    | none => s
    | some (answer, debounce) =>
      { debounce := debounce
        now := s.now + delay
        delivered := s.delivered ++ s.debounce.delivered poll fuel s.now
        emitted := s.emitted ++ answer.toOption.toList.map fun a => ⟨a, s.now, s.now + delay⟩ }

def start (window : ℕ) (s : Debounced σ α) : Prop :=
  s.debounce = Stream.debounce s.debounce.inner window s.now ∧ s.delivered = [] ∧ s.emitted = []

end Debounced

def debounced (poll : σ → Answer α × σ) (window : ℕ) : Machine (Debounced σ α) (Event σ) :=
  guarded (Debounced.start window) (Debounced.enabled poll) (Debounced.next poll)

namespace Debounced

/-- Nothing has been emitted after the timestamp, which lies at `created` at first. -/
structure Spaced (window created : ℕ) (s : Debounced σ α) : Prop where
  same : s.debounce.window = window
  since : created ≤ s.debounce.lastTimestamp
  last : ∀ a ∈ s.emitted, a.later ≤ s.debounce.lastTimestamp
  apart : s.emitted.Pairwise fun a b => a.later + window < b.time
  first : ∀ a ∈ s.emitted, created + window < a.time
  delivered : (s.emitted.map Emission.item).Sublist s.delivered

variable {poll : σ → Answer α × σ} {window created : ℕ} {s : Debounced σ α}

theorem Spaced.of_start (h : s.start window) : s.Spaced window s.now := by
  obtain ⟨hd, hdelivered, hemitted⟩ := h
  refine ⟨by rw [hd]; rfl, by rw [hd]; exact Nat.le_refl _, ?_, ?_, ?_, ?_⟩ <;> simp [hemitted]

/-- A poll within the window emits nothing and leaves the timestamp. -/
theorem next_poll_within {delay fuel : ℕ} (hw : ¬ s.debounce.window < s.debounce.elapsed s.now)
    (he : s.enabled poll (.poll delay fuel)) : ∃ inner, s.next poll (.poll delay fuel) =
      { s with
        debounce := { s.debounce with inner := inner }
        now := s.now + delay
        delivered := s.delivered ++ drained poll fuel s.debounce.inner } := by
  obtain ⟨r, hr⟩ := Option.isSome_iff_exists.mp he
  have hpoll := hr
  rw [Debounce.pollNext, if_neg hw] at hpoll
  obtain ⟨inner, _, rfl⟩ := Option.map_eq_some_iff.mp hpoll
  refine ⟨inner, ?_⟩
  simp [next, hr, Debounce.delivered, if_neg hw, Answer.toOption]

/-- A poll after the window sets the timestamp and emits what the inner stream answers. -/
theorem next_poll_after (delay fuel : ℕ) (hw : s.debounce.window < s.debounce.elapsed s.now) :
    s.next poll (.poll delay fuel) =
      let items := (poll s.debounce.inner).1.toOption.toList
      { debounce := ⟨s.debounce.window, s.now + delay, (poll s.debounce.inner).2⟩
        now := s.now + delay
        delivered := s.delivered ++ items
        emitted := s.emitted ++ items.map fun a => ⟨a, s.now, s.now + delay⟩ } := by
  simp [next, Debounce.pollNext, Debounce.delivered, hw]

theorem Spaced.next {e : Event σ} (h : s.Spaced window created) (he : s.enabled poll e) :
    (s.next poll e).Spaced window created := by
  cases e with
  | advance time => exact ⟨h.same, h.since, h.last, h.apart, h.first, h.delivered⟩
  | change inner => exact ⟨h.same, h.since, h.last, h.apart, h.first, h.delivered⟩
  | poll delay fuel =>
    by_cases hw : s.debounce.window < s.debounce.elapsed s.now
    · have hafter : s.debounce.lastTimestamp + window < s.now := by
        have hwindow := h.same
        unfold Debounce.elapsed at hw
        omega
      rw [next_poll_after delay fuel hw]
      have hcreated := h.since
      refine ⟨h.same, ?_, ?_, ?_, ?_, ?_⟩
      · show created ≤ s.now + delay
        omega
      · intro a ha
        show a.later ≤ s.now + delay
        rcases List.mem_append.mp ha with ha | ha
        · have hlast := h.last a ha
          omega
        · obtain ⟨item, _, rfl⟩ := List.mem_map.mp ha
          exact Nat.le_refl _
      · refine List.pairwise_append.mpr ⟨h.apart, ?_, ?_⟩
        · cases (poll s.debounce.inner).1.toOption <;> simp
        · intro a ha b hb
          obtain ⟨item, _, rfl⟩ := List.mem_map.mp hb
          have hlast := h.last a ha
          show a.later + window < s.now
          omega
      · intro a ha
        rcases List.mem_append.mp ha with ha | ha
        · exact h.first a ha
        · obtain ⟨item, _, rfl⟩ := List.mem_map.mp ha
          show created + window < s.now
          omega
      · have hitem : (Emission.item ∘ fun a : α => ⟨a, s.now, s.now + delay⟩) = id := rfl
        simpa [hitem] using h.delivered
    · obtain ⟨inner, hnext⟩ := next_poll_within hw he
      rw [hnext]
      exact ⟨h.same, h.since, h.last, h.apart, h.first,
        h.delivered.trans (List.sublist_append_left _ _)⟩

end Debounced

/-- Emitted items are more than a window apart, the first one from the creation of the stream, and
each is one of those delivered. -/
theorem emissions_spaced (poll : σ → Answer α × σ) (window : ℕ) (r : Run (debounced poll window)) :
    (r.final.emitted.Pairwise fun a b => a.later + window < b.time) ∧
      (∀ a ∈ r.final.emitted, r.start.now + window < a.time) ∧
      r.final.emitted.length ≤ r.final.delivered.length := by
  have hspaced : r.final.Spaced window r.start.now :=
    (r.path.guarded_invariant (G := fun _ _ => True) (fun _ _ h _ he => h.next he)
      (.of_start r.starts) fun _ _ => trivial).1
  refine ⟨hspaced.apart, hspaced.first, ?_⟩
  simpa using hspaced.delivered.length_le

end Uip.Stream
