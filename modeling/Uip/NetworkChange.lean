import Uip.TransitionSystem
import Mathlib.Data.Nat.Notation

/-!
# Debounced network changes

The stream of changes is polled when the observer asks for its next item and whenever the inner
stream becomes ready, with any time in between. `Observer.lastChange` and `Observer.lastItem`
record what happened; no step reads them.
-/
namespace Uip.Change
open TransitionSystem

inductive Poll
  | ready
  | pending
  deriving DecidableEq

/-- A poll of the inner stream, of which `items` are ready. -/
def pollInner : ℕ → ℕ × Poll
  | 0 => (0, .pending)
  | items + 1 => (items, .ready)

/-- The loop that takes the items of the inner stream until there are none. -/
def discard : ℕ → ℕ × Poll
  | 0 => (0, .pending)
  | items + 1 => discard items

structure Debounce where
  window : ℕ
  lastTimestamp : ℕ
  deriving DecidableEq

namespace Debounce

def elapsed (d : Debounce) (now : ℕ) : ℕ := now - d.lastTimestamp

def pollNext (d : Debounce) (now items : ℕ) : Debounce × ℕ × Poll :=
  if d.elapsed now > d.window then ({ d with lastTimestamp := now }, pollInner items)
  else (d, discard items)

end Debounce

/-- Where `observe_network_changes` stands: about to poll the stream, waiting to be woken by the
inner stream, or in `open_new_sockets`. -/
inductive Phase
  | polling
  | waiting
  | opening
  deriving DecidableEq

structure Observer where
  debounce : Debounce
  now : ℕ
  items : ℕ
  phase : Phase
  lastChange : Option ℕ
  lastItem : Option ℕ

inductive Event
  | change
  | advance (time : ℕ)
  | poll
  | opened
  deriving DecidableEq

namespace Observer

def listen (window : ℕ) : Observer := ⟨⟨window, 0⟩, 0, 0, .polling, none, none⟩

/-- A poll of the stream; an item starts `open_new_sockets`. -/
def poll (s : Observer) : Observer :=
  match s.debounce.pollNext s.now s.items with
  | (debounce, items, .ready) =>
    { s with debounce := debounce, items := items, phase := .opening, lastItem := some s.now }
  | (debounce, items, .pending) =>
    { s with debounce := debounce, items := items, phase := .waiting }

def enabled (s : Observer) : Event → Prop
  | .change | .advance _ => True
  | .poll => s.phase = .polling
  | .opened => s.phase = .opening

instance (s : Observer) (e : Event) : Decidable (s.enabled e) := by
  cases e <;> dsimp only [enabled] <;> infer_instance

def next (s : Observer) : Event → Observer
  | .change =>
    { s with
      items := s.items + 1
      phase := if s.phase = .waiting then .polling else s.phase
      lastChange := some s.now }
  | .advance time => { s with now := s.now + time }
  | .poll => s.poll
  | .opened => { s with phase := .polling }

end Observer

def machine (window : ℕ) : Machine Observer Event :=
  guarded (· = Observer.listen window) Observer.enabled Observer.next

namespace Observer

variable {s : Observer} {e : Event}

/-- Nothing happens any more unless there is another change. -/
def Quiescent (s : Observer) : Prop := s.phase = .waiting

instance (s : Observer) : Decidable s.Quiescent :=
  inferInstanceAs (Decidable (s.phase = .waiting))

/-- An item has been emitted at the time of the last change or later. -/
def Answered (s : Observer) : Prop := ∀ t ∈ s.lastChange, ∃ u ∈ s.lastItem, t ≤ u

instance (s : Observer) : Decidable s.Answered :=
  inferInstanceAs (Decidable (∀ t ∈ s.lastChange, ∃ u ∈ s.lastItem, t ≤ u))

/-- Where the last change has not been answered, the poll comes later than the window. -/
def InTime (s : Observer) (e : Event) : Prop :=
  e = .poll → s.Answered ∨ s.debounce.window < s.now - s.debounce.lastTimestamp

theorem discard_eq (items : ℕ) : discard items = (0, .pending) := by
  induction items with
  | zero => rfl
  | succ items ih => exact ih

theorem poll_within (h : ¬ s.debounce.window < s.debounce.elapsed s.now) :
    s.poll = { s with items := 0, phase := .waiting } := by
  simp only [poll, Debounce.pollNext, h, if_false, discard_eq]

theorem poll_after (h : s.debounce.window < s.debounce.elapsed s.now) :
    s.poll = match s.items with
      | 0 => { s with
          debounce := ⟨s.debounce.window, s.now⟩, items := 0, phase := .waiting }
      | items + 1 => { s with
          debounce := ⟨s.debounce.window, s.now⟩, items := items, phase := .opening
          lastItem := some s.now } := by
  simp only [poll, Debounce.pollNext, gt_iff_lt, h, if_true]
  cases s.items <;> rfl

/-- The invariant of the observer: an unanswered change is still an item of the inner stream,
unless the observer waits. -/
structure Sound (s : Observer) : Prop where
  past : ∀ t ∈ s.lastChange, t ≤ s.now
  waiting : s.phase = .waiting → s.items = 0
  answered : s.phase ≠ .waiting → s.items = 0 → s.Answered

theorem Sound.listen (window : ℕ) : (Observer.listen window).Sound where
  past := by simp [Observer.listen]
  waiting _ := rfl
  answered _ _ := by simp [Observer.listen, Answered]

theorem Sound.answered_now (h : s.Sound) :
    ({ s with lastItem := some s.now } : Observer).Answered :=
  fun t ht => ⟨s.now, rfl, h.past t ht⟩

theorem Sound.next (h : s.Sound) (he : s.enabled e) : (s.next e).Sound := by
  cases e with
  | change =>
    refine ⟨fun t ht => ?_, fun hw => ?_, fun _ hitems => ?_⟩
    · obtain rfl := Option.some.inj ht
      exact Nat.le_refl _
    · by_cases hp : s.phase = .waiting <;> simp [Observer.next, hp] at hw
    · simp [Observer.next] at hitems
  | advance time =>
    exact ⟨fun t ht => Nat.le_trans (h.past t ht) (Nat.le_add_right _ _), h.waiting, h.answered⟩
  | poll =>
    by_cases hw : s.debounce.window < s.debounce.elapsed s.now
    · rw [Observer.next, poll_after hw]
      cases hi : s.items with
      | zero => exact ⟨h.past, fun _ => rfl, by simp⟩
      | succ items => exact ⟨h.past, by simp, fun _ _ => h.answered_now⟩
    · rw [Observer.next, poll_within hw]
      exact ⟨h.past, fun _ => rfl, by simp⟩
  | opened =>
    have hp : s.phase ≠ .waiting := by
      rw [show s.phase = .opening from he]
      decide
    exact ⟨h.past, by simp [Observer.next], fun _ => h.answered hp⟩

/-- Only a poll brings the observer to rest, and it does so too early if the last change is then
swallowed. -/
theorem Sound.quiescent_next (h : s.Sound) (hs : s.Quiescent → s.Answered) (he : s.enabled e) :
    ((s.next e).Quiescent → (s.next e).Answered) ↔ s.InTime e := by
  cases e with
  | change =>
    have hq : ¬ (s.next .change).Quiescent := by
      by_cases hp : s.phase = .waiting <;> simp [Quiescent, Observer.next, hp]
    simp [hq, InTime]
  | advance time => exact iff_of_true hs fun hp => by cases hp
  | poll =>
    have hp : s.phase ≠ .waiting := by
      rw [show s.phase = .polling from he]
      decide
    by_cases hw : s.debounce.window < s.debounce.elapsed s.now
    · have hin : s.InTime .poll := fun _ => .inr hw
      refine iff_of_true ?_ hin
      rw [Observer.next, poll_after hw]
      cases hi : s.items with
      | zero => exact fun _ => h.answered hp hi
      | succ items => simp [Quiescent]
    · rw [Observer.next, poll_within hw]
      constructor
      · intro ha _
        exact .inl (ha rfl)
      · intro hin _
        exact (hin rfl).resolve_right hw
  | opened => simp [Quiescent, Observer.next, InTime]

end Observer

/-- No change is lost exactly where every poll that finds an unanswered change comes later than the
window. -/
theorem changes_answered_iff {window : ℕ} (r : Run (machine window)) :
    (∀ x ∈ r.transitions, x.target.Quiescent → x.target.Answered) ↔
      ∀ x ∈ r.transitions, x.source.InTime x.label := by
  apply Run.guarded_iff (I := Observer.Sound) (P := fun s => s.Quiescent → s.Answered)
  · rintro s rfl
    exact ⟨.listen window, by simp [Observer.listen, Observer.Quiescent]⟩
  · exact fun _ _ h he => h.next he
  · exact fun _ _ h hs he => h.quiescent_next hs he

/-- The observer comes back after three seconds, finds nothing and sets the timestamp anew; the
next change is swallowed. -/
theorem change_swallowed :
    ∃ r : Run (machine 2000), r.start = Observer.listen 2000 ∧
      r.transitions.map Transition.label = [.poll, .advance 10000, .change, .poll, .advance 3000,
        .opened, .poll, .advance 1000, .change, .poll] ∧
      r.final.Quiescent ∧ r.final.lastChange = some 14000 ∧ r.final.lastItem = some 10000 ∧
      ¬ r.final.Answered := by
  obtain ⟨r, hs, hl, h⟩ := exec_final (M := machine 2000) rfl [.poll, .advance 10000, .change,
    .poll, .advance 3000, .opened, .poll, .advance 1000, .change, .poll]
    (p := fun s => decide (s.Quiescent ∧ s.lastChange = some 14000 ∧
      s.lastItem = some 10000 ∧ ¬ s.Answered)) (by decide)
  exact ⟨r, hs, hl, of_decide_eq_true h⟩

end Uip.Change
