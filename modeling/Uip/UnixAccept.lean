import Uip.UnixServerInvariant

/-!
# The accept loop

The accept loop handles the clients in the order in which they connect, and does not accept one
before it has the first frame of the one before. Whether a client can be registered therefore
depends on all clients that connected earlier.
-/
namespace Uip
open TransitionSystem Transport

namespace UnixServer

variable {s t : UnixServer} {e : UnixEvent} {k y : ℕ}

/-- The accept loop waits for the first frame of a client. -/
def Awaits (s : UnixServer) : Prop := ∃ y ∈ s.unix.handling, (s.streams y).poll = none

instance (s : UnixServer) : Decidable s.Awaits :=
  inferInstanceAs (Decidable (∃ y ∈ s.unix.handling, (s.streams y).poll = none))

/-- A client connection waits while the accept loop waits for another client. -/
def Held (s : UnixServer) : Prop := s.unix.backlog ≠ [] ∧ s.Awaits

instance (s : UnixServer) : Decidable s.Held := inferInstanceAs (Decidable (_ ∧ _))

/-- A client is accepted with its first frame, if another one waits; none connects while the accept
loop waits. -/
def Prompt (s : UnixServer) : UnixEvent → Prop
  | .accept k => s.unix.backlog.tail ≠ [] → (s.streams k).poll ≠ none
  | .connect _ => ¬ s.Awaits
  | _ => True

theorem poll_eq_none {stream : UnixStream} :
    stream.poll = none ↔ stream.input = [] ∧ stream.client.closed = false := by
  unfold UnixStream.poll
  split <;> simp_all

theorem next_input (hk : s.unix.clients k = .connected) (he : s.enabled e)
    (hfirst : ∀ item, e ≠ .first k item) : ((s.next e).streams k).input = match e with
      | .write j item => if k = j then (s.streams k).input ++ [item] else (s.streams k).input
      | _ => (s.streams k).input := by
  by_cases hs : e.stream = some k
  · cases e with
    | first j item =>
      obtain rfl := Option.some.inj hs
      exact absurd rfl (hfirst item)
    | read j item =>
      obtain rfl := Option.some.inj hs
      obtain ⟨p, hp⟩ := reads_iff.mp he.1
      simp [hk] at hp
    | connect j | write j | close j | sent j | takeFrame j | written j | writeFailed j
    | channelClosed j | handed j =>
      obtain rfl := Option.some.inj hs
      simp [next, modify]
    | _ => rfl
  · rw [next_stream s e hs]
    cases e with
    | write j item =>
      have hne : k ≠ j := fun h => hs (congrArg some h.symm)
      simp [hne]
    | _ => rfl

theorem poll_next (hk : s.unix.clients k = .connected) (he : s.enabled e)
    (hfirst : ∀ item, e ≠ .first k item) (hp : (s.streams k).poll ≠ none) :
    ((s.next e).streams k).poll ≠ none := by
  rw [Ne, poll_eq_none, next_input hk he hfirst]
  rintro ⟨hinput, hopen⟩
  refine hp (poll_eq_none.mpr ⟨?_, ?_⟩)
  · cases e with
    | write j item =>
      simp only at hinput
      split_ifs at hinput with hj
      · simp at hinput
      · exact hinput
    | _ => exact hinput
  · by_contra hclosed
    rw [closed_next (by simpa using hclosed)] at hopen
    simp at hopen

theorem held_next (h : s.unix.Valid) (hs : ¬ s.Held) (he : s.enabled e) :
    ¬ (s.next e).Held ↔ s.Prompt e := by
  have hwaiting : ∀ y ∈ s.unix.handling, s.unix.clients y = .connected := fun y hy =>
    (h.waiting y (by simp [UnixState.waiting, Option.mem_def.mp hy])).1
  have hsame : (s.next e).unix.backlog = s.unix.backlog →
      (s.next e).unix.handling = s.unix.handling →
      (∀ y ∈ s.unix.handling, ∀ item, e ≠ .first y item) → ¬ (s.next e).Held := by
    rintro hbacklog hhandling hfirst ⟨hne, y, hy, hpoll⟩
    rw [hhandling] at hy
    refine hs ⟨hbacklog ▸ hne, y, hy, ?_⟩
    by_contra hp
    exact poll_next (hwaiting y hy) he (hfirst y hy) hp hpoll
  cases e with
  | connect k =>
    have hpoll : ∀ y, ((s.next (.connect k)).streams y).poll = none ↔
        (s.streams y).poll = none := by
      intro y
      rw [poll_eq_none, poll_eq_none]
      by_cases hy : y = k
      · subst hy
        simp [next, modify]
      · simp [next, modify, hy]
    have hawaits : (s.next (.connect k)).Awaits ↔ s.Awaits := by
      simp only [Awaits, hpoll]
      rfl
    rw [Held, hawaits, Prompt, not_and]
    exact ⟨fun h => h (by simp [next]), fun h _ => h⟩
  | accept k => simp [Held, Awaits, Prompt, next]
  | first k item =>
    have hnone : (s.unix.first k item).handling = none := by
      by_cases hb : ∃ p, item = binds p
      · obtain ⟨p, rfl⟩ := hb
        rfl
      · push Not at hb
        rw [UnixState.first_of_not_binds h he.1 hb]
    refine iff_of_true ?_ trivial
    rintro ⟨_, y, hy, _⟩
    rw [next_unix] at hy
    simp [hnone] at hy
  | read k item =>
    obtain ⟨p, hp⟩ := reads_iff.mp he.1
    have hread : (s.unix.read k item).backlog = s.unix.backlog ∧
        (s.unix.read k item).handling = s.unix.handling := by
      rcases read_cases s.unix k item with ⟨_, _, _, _, hr⟩ | ⟨_, hr⟩
      · rw [hr]
        exact ⟨rfl, rfl⟩
      · rw [hr, UnixState.endOfStream, hp]
        exact ⟨rfl, rfl⟩
    exact iff_of_true (hsame hread.1 hread.2 (by simp)) trivial
  | _ => exact iff_of_true (hsame rfl rfl (by simp)) trivial

end UnixServer

/-- No client is held up exactly where each one that has others behind it is accepted with its
first frame, and none connects while the accept loop waits. -/
theorem held_iff (r : Run unixMachine) : (∀ x ∈ r.transitions, ¬ x.target.Held) ↔
    ∀ x ∈ r.transitions, x.source.Prompt x.label := by
  apply Run.guarded_iff (I := fun s : UnixServer => s.unix.Valid) (P := fun s => ¬ s.Held)
  · rintro s rfl
    exact ⟨.new, fun h => h.1 rfl⟩
  · exact fun _ _ h he => UnixServer.unix_next h he
  · exact fun _ _ h hs he => UnixServer.held_next h hs he

end Uip
