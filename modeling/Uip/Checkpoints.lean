import Uip.TransitionSystem
import Mathlib.Data.List.Induction

/-!
# Checkpoints

A service loads its state from a stored text when it starts and saves it when it is stopped; when
it crashes, what has changed since is lost. The text may be replaced from outside. The journal of
a run tells of the stored text and of the running service from which text put there from outside
they come, and which steps since then they have kept.
-/
namespace Checkpoints
open TransitionSystem

variable {σ ε τ ν μ : Type*}

structure Service (σ ε τ : Type*) where
  load : τ → Option σ
  step : σ → ε → Option σ
  save : σ → Option τ

structure State (σ τ : Type*) where
  stored : Option τ
  running : Option σ
  deriving DecidableEq

inductive Event (ε τ : Type*)
  | replace (text : Option τ)
  | start
  | step (e : ε)
  | stop
  | crash

def Event.steps : Event ε τ → Option ε
  | .step e => some e
  | _ => none

namespace Service

variable (S : Service σ ε τ)

def next (s : State σ τ) : Event ε τ → Option (State σ τ)
  | .replace text => some { s with stored := text }
  | .start =>
    match s.running with
    | none => (s.stored.bind S.load).map fun v => { s with running := some v }
    | some _ => none
  | .step e => (s.running.bind (S.step · e)).map fun v => { s with running := some v }
  | .stop => (s.running.bind S.save).map fun text => ⟨some text, none⟩
  | .crash => s.running.map fun _ => { s with running := none }

def machine : Machine (State σ τ) (Event ε τ) := ⟨fun s => s.running = none, S.next⟩

variable {S} {s t : State σ τ}

theorem next_cases {e : Event ε τ} (h : S.next s e = some t) :
    (∃ text, e = .replace text ∧ t = ⟨text, s.running⟩) ∨
    (∃ text v, e = .start ∧ s = ⟨some text, none⟩ ∧ S.load text = some v ∧
      t = ⟨some text, some v⟩) ∨
    (∃ e' v w, e = .step e' ∧ s.running = some v ∧ S.step v e' = some w ∧
      t = ⟨s.stored, some w⟩) ∨
    (∃ v text, e = .stop ∧ s.running = some v ∧ S.save v = some text ∧ t = ⟨some text, none⟩) ∨
    (e = .crash ∧ t = ⟨s.stored, none⟩) := by
  obtain ⟨stored, running⟩ := s
  cases e with
  | replace text => exact .inl ⟨text, rfl, (Option.some.inj h).symm⟩
  | start =>
    cases running with
    | some v => cases h
    | none =>
      obtain ⟨v, hv, rfl⟩ := Option.map_eq_some_iff.mp h
      obtain ⟨text, hstored, hload⟩ := Option.bind_eq_some_iff.mp hv
      cases show stored = some text from hstored
      exact .inr (.inl ⟨text, v, rfl, rfl, hload, rfl⟩)
  | step e' =>
    obtain ⟨w, hw, rfl⟩ := Option.map_eq_some_iff.mp h
    obtain ⟨v, hrunning, hstep⟩ := Option.bind_eq_some_iff.mp hw
    exact .inr (.inr (.inl ⟨e', v, w, rfl, hrunning, hstep, rfl⟩))
  | stop =>
    obtain ⟨text, htext, rfl⟩ := Option.map_eq_some_iff.mp h
    obtain ⟨v, hrunning, hsave⟩ := Option.bind_eq_some_iff.mp htext
    exact .inr (.inr (.inr (.inl ⟨v, text, rfl, hrunning, hsave, rfl⟩)))
  | crash =>
    obtain ⟨v, -, rfl⟩ := Option.map_eq_some_iff.mp h
    exact .inr (.inr (.inr (.inr ⟨rfl, rfl⟩)))

end Service

/-- A text that was put there from outside, and the steps kept since. -/
structure Entry (ε τ : Type*) where
  text : τ
  kept : List ε

structure Journal (ε τ : Type*) where
  stored : Option (Entry ε τ)
  running : Option (Entry ε τ)

namespace Journal

def begin (text : Option τ) : Journal ε τ := ⟨text.map (⟨·, []⟩), none⟩

def next (j : Journal ε τ) : Event ε τ → Journal ε τ
  | .replace text => { j with stored := text.map (⟨·, []⟩) }
  | .start => { j with running := j.stored }
  | .step e => { j with running := j.running.map fun entry => ⟨entry.text, entry.kept ++ [e]⟩ }
  | .stop => ⟨j.running, none⟩
  | .crash => { j with running := none }

end Journal

/-- The journal of the events from a state on at which the service does not run. -/
def journal (s : State σ τ) (events : List (Event ε τ)) : Journal ε τ :=
  events.foldl Journal.next (.begin s.stored)

/-- Steps act on what the view of a service shows, and saving and loading keep it but for what
`keep` leaves out. -/
structure Kept (S : Service σ ε τ) (inv : σ → Prop) (view : σ → ν) (update : ν → ε → ν)
    (keep : ν → μ) : Prop where
  loaded : ∀ text v, S.load text = some v → inv v
  steps : ∀ v e w, inv v → S.step v e = some w → inv w ∧ view w = update (view v) e
  saved : ∀ v text w, inv v → S.save v = some text → S.load text = some w →
    keep (view w) = keep (view v)
  congr : ∀ a b e, keep a = keep b → keep (update a e) = keep (update b e)

/-- The service has the view that the steps of its entry give from the text of the entry. -/
def Entry.Gives (S : Service σ ε τ) (view : σ → ν) (update : ν → ε → ν) (keep : ν → μ)
    (entry : Entry ε τ) (v : σ) : Prop :=
  ∃ v₀, S.load entry.text = some v₀ ∧
    keep (view v) = keep (entry.kept.foldl update (view v₀))

structure Traced (S : Service σ ε τ) (inv : σ → Prop) (view : σ → ν) (update : ν → ε → ν)
    (keep : ν → μ) (s : State σ τ) (j : Journal ε τ) : Prop where
  stored : ∀ text, s.stored = some text → ∃ entry, j.stored = some entry ∧
    ∀ v, S.load text = some v → entry.Gives S view update keep v
  running : ∀ v, s.running = some v → inv v ∧
    ∃ entry, j.running = some entry ∧ entry.Gives S view update keep v

variable {S : Service σ ε τ} {inv : σ → Prop} {view : σ → ν} {update : ν → ε → ν} {keep : ν → μ}
  {s t : State σ τ} {j : Journal ε τ} {trace : List (Transition (State σ τ) (Event ε τ))}

theorem Traced.replaced (h : Traced S inv view update keep s j) (text : Option τ) :
    Traced S inv view update keep ⟨text, s.running⟩ (j.next (.replace text)) where
  stored := by
    rintro text' rfl
    exact ⟨⟨text', []⟩, rfl, fun v hv => ⟨v, hv, rfl⟩⟩
  running := h.running

theorem Traced.next (hkept : Kept S inv view update keep) {e : Event ε τ}
    (h : Traced S inv view update keep s j) (he : S.next s e = some t) :
    Traced S inv view update keep t (j.next e) := by
  rcases Service.next_cases he with ⟨text, rfl, rfl⟩ | ⟨text, v, rfl, rfl, hload, rfl⟩ |
    ⟨e, v, w, rfl, hrunning, hstep, rfl⟩ | ⟨v, text, rfl, hrunning, hsave, rfl⟩ | ⟨rfl, rfl⟩
  · exact h.replaced text
  · obtain ⟨entry, hentry, hgives⟩ := h.stored text rfl
    refine ⟨h.stored, ?_⟩
    intro v' hv'
    cases hv'
    exact ⟨hkept.loaded text v hload, entry, hentry, hgives v hload⟩
  · obtain ⟨hinv, entry, hentry, v₀, hv₀, hview⟩ := h.running v hrunning
    obtain ⟨hinv', hstep⟩ := hkept.steps v e w hinv hstep
    refine ⟨h.stored, ?_⟩
    intro w' hw'
    cases hw'
    refine ⟨hinv', ⟨entry.text, entry.kept ++ [e]⟩, by simp [Journal.next, hentry], v₀, hv₀, ?_⟩
    rw [hstep, List.foldl_append]
    exact hkept.congr _ _ e hview
  · obtain ⟨hinv, entry, hentry, v₀, hv₀, hview⟩ := h.running v hrunning
    refine ⟨?_, fun _ hv => by cases hv⟩
    intro text' htext
    cases htext
    exact ⟨entry, hentry, fun w hw => ⟨v₀, hv₀, (hkept.saved v text w hinv hsave hw).trans hview⟩⟩
  · exact ⟨h.stored, fun _ hv => by cases hv⟩

/-- In every run the service shows what the steps of its entry in the journal give. -/
theorem traced_of_path (hkept : Kept S inv view update keep) (hs : s.running = none)
    (path : Path S.machine s trace t) :
    Traced S inv view update keep t (journal s (trace.map Transition.label)) := by
  induction path with
  | nil =>
    refine ⟨?_, fun v hv => by rw [hs] at hv; cases hv⟩
    intro text htext
    exact ⟨⟨text, []⟩, by simp [journal, Journal.begin, htext], fun v hv => ⟨v, hv, rfl⟩⟩
  | snoc prior next ih =>
    rw [List.map_append, journal, List.foldl_append]
    exact ih.next hkept next

theorem kept_sublist (s : State σ τ) (events : List (Event ε τ)) {entry : Entry ε τ}
    (h : (journal s events).stored = some entry ∨ (journal s events).running = some entry) :
    entry.kept.Sublist (events.filterMap Event.steps) := by
  induction events using List.reverseRecOn generalizing entry with
  | nil =>
    rcases h with h | h
    · obtain ⟨text, -, rfl⟩ := Option.map_eq_some_iff.mp h
      exact List.Sublist.refl _
    · cases h
  | append_singleton events e ih =>
    rw [List.filterMap_append]
    have hold : ∀ {entry' : Entry ε τ}, ((journal s events).stored = some entry' ∨
        (journal s events).running = some entry') → entry'.kept.Sublist
          (events.filterMap Event.steps ++ [e].filterMap Event.steps) := fun h =>
      (ih h).trans (List.sublist_append_left _ _)
    rw [journal, List.foldl_append] at h
    cases e with
    | replace text =>
      rcases h with h | h
      · obtain ⟨text, -, rfl⟩ := Option.map_eq_some_iff.mp h
        exact List.nil_sublist _
      · exact hold (.inr h)
    | start =>
      rcases h with h | h
      · exact hold (.inl h)
      · exact hold (.inl h)
    | step e =>
      rcases h with h | h
      · exact hold (.inl h)
      · obtain ⟨entry', hentry, rfl⟩ := Option.map_eq_some_iff.mp h
        exact (ih (.inr hentry)).append (List.Sublist.refl [e])
    | stop =>
      rcases h with h | h
      · exact hold (.inr h)
      · cases h
    | crash =>
      rcases h with h | h
      · exact hold (.inl h)
      · cases h

end Checkpoints
