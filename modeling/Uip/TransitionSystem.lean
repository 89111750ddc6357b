import Mathlib.Tactic.TypeStar

/-!
# Executable transition systems

A machine has initial states and a guarded step: `step s e` is `none` where the event `e`
is disabled. A run records every transition it takes, so that a statement may range over
the states a run visits and over the steps it makes.
-/
namespace TransitionSystem

structure Machine (σ ε : Type*) where
  init : σ → Prop
  step : σ → ε → Option σ

structure Transition (σ ε : Type*) where
  source : σ
  label : ε
  target : σ

/-- The machine that makes the update `next` where the guard `enabled` holds. -/
def guarded {σ ε : Type*} (init : σ → Prop) (enabled : σ → ε → Prop)
    [∀ s e, Decidable (enabled s e)] (next : σ → ε → σ) : Machine σ ε where
  init := init
  step s e := if enabled s e then some (next s e) else none

@[simp] theorem guarded_step {σ ε : Type*} {init : σ → Prop} {enabled : σ → ε → Prop}
    [∀ s e, Decidable (enabled s e)] {next : σ → ε → σ} {s t : σ} {e : ε} :
    (guarded init enabled next).step s e = some t ↔ enabled s e ∧ next s e = t := by
  simp [guarded]

variable {σ ε τ δ : Type*} {M : Machine σ ε} {N : Machine τ δ}

inductive Path (M : Machine σ ε) : σ → List (Transition σ ε) → σ → Prop
  | nil (s : σ) : Path M s [] s
  | snoc {s t u : σ} {trace : List (Transition σ ε)} {e : ε}
      (prior : Path M s trace t) (next : M.step t e = some u) :
      Path M s (trace ++ [⟨t, e, u⟩]) u

structure Run (M : Machine σ ε) where
  start : σ
  transitions : List (Transition σ ε)
  final : σ
  starts : M.init start
  path : Path M start transitions final

def Reachable (M : Machine σ ε) (s : σ) : Prop := ∃ r : Run M, r.final = s

namespace Path

theorem single {s t : σ} {e : ε} (h : M.step s e = some t) : Path M s [⟨s, e, t⟩] t := by
  simpa using (nil s).snoc h

theorem append {s t u : σ} {a b : List (Transition σ ε)} (h : Path M s a t)
    (g : Path M t b u) : Path M s (a ++ b) u := by
  induction g with
  | nil => simpa using h
  | snoc _ next ih => simpa [← List.append_assoc] using ih.snoc next

theorem cons {s t u : σ} {e : ε} {trace : List (Transition σ ε)}
    (h : M.step s e = some t) (g : Path M t trace u) : Path M s (⟨s, e, t⟩ :: trace) u :=
  (single h).append g

theorem step_of_mem {s t : σ} {trace : List (Transition σ ε)} (h : Path M s trace t)
    {x : Transition σ ε} (hx : x ∈ trace) : M.step x.source x.label = some x.target := by
  induction h with
  | nil => simp at hx
  | snoc _ next ih =>
    rcases List.mem_append.mp hx with hx | hx
    · exact ih hx
    · obtain rfl := List.mem_singleton.mp hx
      exact next

/-- The invariant rule for steps that meet the guard `G`. -/
theorem invariant {P : σ → Prop} {G : σ → ε → Prop}
    (hstep : ∀ s e t, P s → G s e → M.step s e = some t → P t)
    {s t : σ} {trace : List (Transition σ ε)} (h : Path M s trace t) (hs : P s)
    (hg : ∀ x ∈ trace, G x.source x.label) :
    P t ∧ ∀ x ∈ trace, P x.source ∧ P x.target := by
  induction h with
  | nil => exact ⟨hs, by simp⟩
  | @snoc t u trace e prior next ih =>
    obtain ⟨ht, hall⟩ := ih fun x hx => hg x (List.mem_append_left _ hx)
    have hu : P u := hstep t e u ht (hg ⟨t, e, u⟩ (by simp)) next
    refine ⟨hu, fun x hx => ?_⟩
    rcases List.mem_append.mp hx with hx | hx
    · exact hall x hx
    · obtain rfl := List.mem_singleton.mp hx
      exact ⟨ht, hu⟩

/-- What the steps `S` bring about and the steps `C` take away holds in the end where no step
`C` comes after some step `S`. -/
theorem brought_iff {I P : σ → Prop} {S C : σ → ε → Prop}
    (hinv : ∀ s e t, I s → M.step s e = some t → I t)
    (hexact : ∀ s e t, I s → M.step s e = some t → (P t ↔ S s e ∨ P s ∧ ¬ C s e))
    {s t : σ} {trace : List (Transition σ ε)} (h : Path M s trace t) (hs : I s) (hp : ¬ P s) :
    I t ∧ (P t ↔ ∃ before x after, trace = before ++ x :: after ∧ S x.source x.label ∧
      ∀ y ∈ after, ¬ C y.source y.label) := by
  induction h with
  | nil => exact ⟨hs, by simp [hp]⟩
  | @snoc t u trace e prior next ih =>
    obtain ⟨ht, hiff⟩ := ih
    refine ⟨hinv t e u ht next, ?_⟩
    rw [hexact t e u ht next, hiff]
    constructor
    · rintro (hset | ⟨⟨before, x, after, rfl, hx, hafter⟩, hkept⟩)
      · exact ⟨trace, ⟨t, e, u⟩, [], rfl, hset, by simp⟩
      · refine ⟨before, x, after ++ [⟨t, e, u⟩], by simp, hx, ?_⟩
        rw [List.forall_mem_append, List.forall_mem_singleton]
        exact ⟨hafter, hkept⟩
    · rintro ⟨before, x, after, heq, hx, hafter⟩
      rcases List.eq_nil_or_concat after with rfl | ⟨rest, y, rfl⟩
      · obtain ⟨-, hlast⟩ := List.append_inj' heq rfl
        obtain rfl := List.singleton_inj.mp hlast
        exact .inl hx
      · rw [List.concat_eq_append, List.forall_mem_append, List.forall_mem_singleton] at hafter
        rw [List.concat_eq_append, ← List.cons_append, ← List.append_assoc] at heq
        obtain ⟨rfl, hlast⟩ := List.append_inj' heq rfl
        obtain rfl := List.singleton_inj.mp hlast
        exact .inr ⟨⟨before, x, rest, rfl, hx, hafter.1⟩, hafter.2⟩

end Path

def Machine.restrict (M : Machine σ ε) (g : σ → ε → Bool) : Machine σ ε where
  init := M.init
  step s e := if g s e then M.step s e else none

theorem Path.of_restrict {g : σ → ε → Bool} {s t : σ} {trace : List (Transition σ ε)}
    (h : Path (M.restrict g) s trace t) :
    Path M s trace t ∧ ∀ x ∈ trace, g x.source x.label = true := by
  induction h with
  | nil => exact ⟨.nil _, by simp⟩
  | @snoc t u trace e prior next ih =>
    obtain ⟨path, htest⟩ := ih
    obtain ⟨hg, hstep⟩ : g t e = true ∧ M.step t e = some u := by
      simpa [Machine.restrict] using next
    refine ⟨path.snoc hstep, fun x hx => ?_⟩
    rcases List.mem_append.mp hx with hx | hx
    · exact htest x hx
    · obtain rfl := List.mem_singleton.mp hx
      exact hg

/-- A property kept by every step holds wherever a path leads. -/
theorem Path.preserves {P : σ → Prop} (hstep : ∀ s e t, P s → M.step s e = some t → P t)
    {s t : σ} {trace : List (Transition σ ε)} (h : Path M s trace t) (hs : P s) :
    P t ∧ ∀ x ∈ trace, P x.source ∧ P x.target :=
  h.invariant (G := fun _ _ => True) (fun s e t hp _ => hstep s e t hp) hs fun _ _ => trivial

/-- Where all steps of a path end in good states, they start in good states too. -/
theorem Path.sources {P : σ → Prop} {s t : σ} {trace : List (Transition σ ε)}
    (h : Path M s trace t) (hs : P s) (hg : ∀ x ∈ trace, P x.target) :
    P t ∧ ∀ x ∈ trace, P x.source := by
  induction h with
  | nil => exact ⟨hs, by simp⟩
  | @snoc t u trace e prior next ih =>
    obtain ⟨ht, hall⟩ := ih fun x hx => hg x (List.mem_append_left _ hx)
    refine ⟨hg ⟨t, e, u⟩ (by simp), fun x hx => ?_⟩
    rcases List.mem_append.mp hx with hx | hx
    · exact hall x hx
    · obtain rfl := List.mem_singleton.mp hx
      exact ht

theorem Path.carries {P : σ → Prop} {s t : σ} {trace : List (Transition σ ε)}
    (h : Path M s trace t) (hs : P s) (hg : ∀ x ∈ trace, P x.source → P x.target) : P t := by
  induction h with
  | nil => exact hs
  | @snoc t u trace e prior next ih =>
    have ht := ih fun x hx => hg x (List.mem_append_left _ hx)
    exact hg ⟨t, e, u⟩ (by simp) ht

/-- A relation that every step keeps holds between each state of a path and its last. -/
theorem Path.relates {R : σ → σ → Prop} (hrefl : ∀ s, R s s)
    (htrans : ∀ s t u, R s t → R t u → R s u) {s t : σ} {trace : List (Transition σ ε)}
    (h : Path M s trace t) (hstep : ∀ x ∈ trace, R x.source x.target) :
    ∀ x ∈ trace, R x.source t ∧ R x.target t := by
  induction h with
  | nil => simp
  | @snoc t u trace e prior next ih =>
    have hlast : R t u := hstep ⟨t, e, u⟩ (by simp)
    intro x hx
    rcases List.mem_append.mp hx with hx | hx
    · obtain ⟨hs, ht⟩ := ih (fun y hy => hstep y (List.mem_append_left _ hy)) x hx
      exact ⟨htrans _ _ _ hs hlast, htrans _ _ _ ht hlast⟩
    · obtain rfl := List.mem_singleton.mp hx
      exact ⟨hlast, hrefl u⟩

/-- What leads to a lasting property that excludes it happens at most once. -/
theorem Path.at_most_once {E : Transition σ ε → Prop} {Q : σ → Prop} {s t : σ}
    {trace : List (Transition σ ε)} (h : Path M s trace t)
    (after : ∀ x ∈ trace, E x → Q x.target) (lasts : ∀ x ∈ trace, Q x.source → Q x.target)
    (excludes : ∀ x ∈ trace, E x → ¬ Q x.source) :
    trace.Pairwise fun x y => ¬ (E x ∧ E y) := by
  -- The induction also carries that the last state has the property once it has happened.
  suffices hall : (trace.Pairwise fun x y => ¬ (E x ∧ E y)) ∧ ∀ x ∈ trace, E x → Q t from hall.1
  induction h with
  | nil => simp
  | @snoc t u trace e prior next ih =>
    obtain ⟨hpair, hlast⟩ := ih (fun x hx => after x (List.mem_append_left _ hx))
      (fun x hx => lasts x (List.mem_append_left _ hx))
      (fun x hx => excludes x (List.mem_append_left _ hx))
    constructor
    · refine List.pairwise_append.mpr ⟨hpair, List.pairwise_singleton _ _, ?_⟩
      rintro x hx y hy ⟨hxe, hye⟩
      obtain rfl := List.mem_singleton.mp hy
      exact excludes _ (by simp) hye (hlast x hx hxe)
    · intro x hx he
      rcases List.mem_append.mp hx with hx | hx
      · exact lasts ⟨t, e, u⟩ (by simp) (hlast x hx he)
      · obtain rfl := List.mem_singleton.mp hx
        exact after _ (by simp) he

namespace Reachable

theorem start {s : σ} (h : M.init s) : Reachable M s := ⟨⟨s, [], s, h, .nil s⟩, rfl⟩

theorem extend {s t : σ} {trace : List (Transition σ ε)} (h : Reachable M s)
    (g : Path M s trace t) : Reachable M t := by
  obtain ⟨r, rfl⟩ := h
  exact ⟨⟨r.start, r.transitions ++ trace, t, r.starts, r.path.append g⟩, rfl⟩

theorem next {s t : σ} {e : ε} (h : Reachable M s) (g : M.step s e = some t) :
    Reachable M t := h.extend (.single g)

theorem induct {P : σ → Prop} (hinit : ∀ s, M.init s → P s)
    (hstep : ∀ s e t, P s → M.step s e = some t → P t) {s : σ} (h : Reachable M s) : P s := by
  obtain ⟨r, rfl⟩ := h
  exact (r.path.preserves hstep (hinit _ r.starts)).1

end Reachable

namespace Run

theorem reachable (r : Run M) : Reachable M r.final := ⟨r, rfl⟩

theorem reachable_of_mem (r : Run M) {x : Transition σ ε} (hx : x ∈ r.transitions) :
    Reachable M x.source ∧ Reachable M x.target :=
  (r.path.preserves (fun _ _ _ hp hs => hp.next hs) (.start r.starts)).2 x hx

/-- When each step from a good state ends in a good state exactly under the guard `G`, a run
visits good states only if and only if all its steps meet the guard. -/
theorem good_iff_guard {I P : σ → Prop} {G : σ → ε → Prop}
    (hinit : ∀ s, M.init s → I s ∧ P s)
    (hinv : ∀ s e t, I s → M.step s e = some t → I t)
    (hexact : ∀ s e t, I s → P s → M.step s e = some t → (P t ↔ G s e)) (r : Run M) :
    (∀ x ∈ r.transitions, P x.target) ↔ ∀ x ∈ r.transitions, G x.source x.label := by
  obtain ⟨s, trace, t, hs, path⟩ := r
  -- The induction also carries that the last state is good when all before it are.
  suffices h : ((∀ x ∈ trace, P x.target) ↔ ∀ x ∈ trace, G x.source x.label) ∧
      I t ∧ ((∀ x ∈ trace, P x.target) → P t) from h.1
  induction path with
  | nil => exact ⟨by simp, (hinit _ hs).1, fun _ => (hinit _ hs).2⟩
  | @snoc t u trace e prior next ih =>
    obtain ⟨hiff, hi, hgood⟩ := ih
    simp only [List.forall_mem_append, List.forall_mem_singleton]
    refine ⟨?_, hinv t e u hi next, And.right⟩
    constructor
    · rintro ⟨hall, hu⟩
      exact ⟨hiff.mp hall, (hexact t e u hi (hgood hall) next).mp hu⟩
    · rintro ⟨hall, he⟩
      have hg := hiff.mpr hall
      exact ⟨hg, (hexact t e u hi (hgood hg) next).mpr he⟩

end Run

section Guarded
variable {init : σ → Prop} {enabled : σ → ε → Prop} [∀ s e, Decidable (enabled s e)]
  {next : σ → ε → σ} {P : σ → Prop} {G : σ → ε → Prop}

theorem Reachable.guarded_induct (hinit : ∀ s, init s → P s)
    (hnext : ∀ s e, P s → enabled s e → P (next s e)) {s : σ}
    (h : Reachable (guarded init enabled next) s) : P s := by
  apply h.induct hinit
  intro s e t hs hst
  obtain ⟨he, rfl⟩ := guarded_step.mp hst
  exact hnext s e hs he

theorem Path.guarded_invariant (hnext : ∀ s e, P s → G s e → enabled s e → P (next s e))
    {s t : σ} {trace : List (Transition σ ε)} (h : Path (guarded init enabled next) s trace t)
    (hs : P s) (hg : ∀ x ∈ trace, G x.source x.label) :
    P t ∧ ∀ x ∈ trace, P x.source ∧ P x.target := by
  apply h.invariant _ hs hg
  intro s e t hp hge hst
  obtain ⟨he, rfl⟩ := guarded_step.mp hst
  exact hnext s e hp hge he

theorem Path.guarded_brought_iff {I : σ → Prop} {S C : σ → ε → Prop}
    (hinv : ∀ s e, I s → enabled s e → I (next s e))
    (hexact : ∀ s e, I s → enabled s e → (P (next s e) ↔ S s e ∨ P s ∧ ¬ C s e))
    {s t : σ} {trace : List (Transition σ ε)} (h : Path (guarded init enabled next) s trace t)
    (hs : I s) (hp : ¬ P s) :
    P t ↔ ∃ before x after, trace = before ++ x :: after ∧ S x.source x.label ∧
      ∀ y ∈ after, ¬ C y.source y.label := by
  refine (h.brought_iff (I := I) ?_ ?_ hs hp).2
  · intro s e t hi hst
    obtain ⟨he, rfl⟩ := guarded_step.mp hst
    exact hinv s e hi he
  · intro s e t hi hst
    obtain ⟨he, rfl⟩ := guarded_step.mp hst
    exact hexact s e hi he

/-- The rule for exact guards, where good states and their guard are compared step by step. -/
theorem Run.guarded_iff {I : σ → Prop} (hinit : ∀ s, init s → I s ∧ P s)
    (hinv : ∀ s e, I s → enabled s e → I (next s e))
    (hexact : ∀ s e, I s → P s → enabled s e → (P (next s e) ↔ G s e))
    (r : Run (guarded init enabled next)) :
    (∀ x ∈ r.transitions, P x.target) ↔ ∀ x ∈ r.transitions, G x.source x.label := by
  apply r.good_iff_guard hinit
  · intro s e t hi hst
    obtain ⟨he, rfl⟩ := guarded_step.mp hst
    exact hinv s e hi he
  · intro s e t hi hp hst
    obtain ⟨he, rfl⟩ := guarded_step.mp hst
    exact hexact s e hi hp he

end Guarded

def exec (M : Machine σ ε) (s : σ) (events : List ε) : Option σ := events.foldlM M.step s

@[simp] theorem exec_nil (s : σ) : exec M s [] = some s := rfl

@[simp] theorem exec_cons (s : σ) (e : ε) (events : List ε) :
    exec M s (e :: events) = (M.step s e).bind fun t => exec M t events := rfl

theorem exec_step {s t : σ} {e : ε} (h : M.step s e = some t) (events : List ε) :
    exec M s (e :: events) = exec M t events := by
  rw [exec_cons, h, Option.bind_some]

theorem exec_append (s : σ) (a b : List ε) :
    exec M s (a ++ b) = (exec M s a).bind fun t => exec M t b := List.foldlM_append

/-- A view `f` that hidden steps keep and shown steps take to steps of `N` sees a replay of the
shown events. -/
theorem Path.exec_projection {N : Machine τ ε} {f : σ → τ} {shown : ε → Bool} {s t : σ}
    {trace : List (Transition σ ε)} (h : Path M s trace t)
    (hshown : ∀ x ∈ trace, shown x.label = true →
      N.step (f x.source) x.label = some (f x.target))
    (hhidden : ∀ x ∈ trace, shown x.label = false → f x.target = f x.source) :
    exec N (f s) ((trace.map Transition.label).filter shown) = some (f t) := by
  induction h with
  | nil => rfl
  | @snoc t u trace e prior next ih =>
    have hprior := ih (fun x hx => hshown x (List.mem_append_left _ hx))
      (fun x hx => hhidden x (List.mem_append_left _ hx))
    rw [List.map_append, List.filter_append, exec_append, hprior, Option.bind_some]
    cases he : shown e with
    | true =>
      have hstep : N.step (f t) e = some (f u) := hshown ⟨t, e, u⟩ (by simp) he
      simp [he, hstep]
    | false =>
      have hsame : f u = f t := hhidden ⟨t, e, u⟩ (by simp) he
      simp [he, hsame]

theorem exec_path {s t : σ} {events : List ε} (h : exec M s events = some t) :
    ∃ trace, Path M s trace t ∧ trace.map Transition.label = events := by
  induction events generalizing s with
  | nil =>
    obtain rfl := Option.some.inj h
    exact ⟨[], .nil s, rfl⟩
  | cons e events ih =>
    obtain ⟨u, hu, hrest⟩ := Option.bind_eq_some_iff.mp h
    obtain ⟨trace, path, hl⟩ := ih hrest
    exact ⟨⟨s, e, u⟩ :: trace, .cons hu path, by simp [hl]⟩

theorem exec_run {s t : σ} (hs : M.init s) {events : List ε} (h : exec M s events = some t) :
    ∃ r : Run M, r.start = s ∧ r.final = t ∧ r.transitions.map Transition.label = events := by
  obtain ⟨trace, path, hl⟩ := exec_path h
  exact ⟨⟨s, trace, t, hs, path⟩, rfl, rfl, hl⟩

/-- A replay whose last state passes the test `p` gives a run that does. -/
theorem exec_final {s : σ} (hs : M.init s) (events : List ε) {p : σ → Bool}
    (h : (exec M s events).any p = true) : ∃ r : Run M, r.start = s ∧
      r.transitions.map Transition.label = events ∧ p r.final = true := by
  obtain ⟨t, ht, hp⟩ := (Option.any_eq_true ..).mp h
  obtain ⟨r, hr, rfl, hl⟩ := exec_run hs ht
  exact ⟨r, hr, hl, hp⟩

theorem exec_reachable {s : σ} (hs : M.init s) (events : List ε) {p : σ → Bool}
    (h : (exec M s events).any p = true) : ∃ t, Reachable M t ∧ p t = true := by
  obtain ⟨t, ht, hp⟩ := (Option.any_eq_true ..).mp h
  obtain ⟨trace, path, _⟩ := exec_path ht
  exact ⟨t, (Reachable.start hs).extend path, hp⟩

/-- A replay that takes the event `e` from a state that passes `p` to one that passes `q`. -/
theorem exec_visits {s : σ} (hs : M.init s) (events : List ε) (e : ε) {p q : σ → Bool}
    (h : (exec M s events).any (fun t => p t && (M.step t e).any q) = true) :
    ∃ r : Run M, r.start = s ∧ ∃ x ∈ r.transitions,
      x.label = e ∧ p x.source = true ∧ q x.target = true := by
  obtain ⟨t, ht, hp⟩ := (Option.any_eq_true ..).mp h
  obtain ⟨hpt, hq⟩ := (Bool.and_eq_true ..).mp hp
  obtain ⟨u, hu, hqu⟩ := (Option.any_eq_true ..).mp hq
  obtain ⟨trace, path, _⟩ := exec_path ht
  exact ⟨⟨s, _, u, hs, path.snoc hu⟩, rfl, ⟨t, e, u⟩, by simp, rfl, hpt, hqu⟩

theorem exec_visits_tested {g : σ → ε → Bool} {s : σ} (hs : M.init s) (events : List ε) (e : ε)
    {p q : σ → Bool} (h : (exec (M.restrict g) s events).any
      (fun t => p t && ((M.restrict g).step t e).any q) = true) :
    ∃ r : Run M, (∀ x ∈ r.transitions, g x.source x.label = true) ∧ ∃ x ∈ r.transitions,
      x.label = e ∧ p x.source = true ∧ q x.target = true := by
  obtain ⟨r, _, x, hx⟩ := exec_visits (M := M.restrict g) hs events e h
  obtain ⟨path, htest⟩ := r.path.of_restrict
  exact ⟨⟨r.start, r.transitions, r.final, r.starts, path⟩, htest, x, hx⟩

theorem exec_final_tested {g : σ → ε → Bool} {s : σ} (hs : M.init s) (events : List ε)
    {p : σ → Bool} (h : (exec (M.restrict g) s events).any p = true) :
    ∃ r : Run M, (∀ x ∈ r.transitions, g x.source x.label = true) ∧ p r.final = true := by
  obtain ⟨r, _, _, hp⟩ := exec_final (M := M.restrict g) hs events h
  obtain ⟨path, htest⟩ := r.path.of_restrict
  exact ⟨⟨r.start, r.transitions, r.final, r.starts, path⟩, htest, hp⟩

theorem Path.length_le {B : σ → Nat → Prop}
    (hstep : ∀ s e t n, B s n → M.step s e = some t → ∃ m, m < n ∧ B t m)
    {s t : σ} {trace : List (Transition σ ε)} {n : Nat} (h : Path M s trace t)
    (hs : B s n) : ∃ m, trace.length + m ≤ n ∧ B t m := by
  induction h with
  | nil => exact ⟨n, by simp, hs⟩
  | @snoc t u trace e prior next ih =>
    obtain ⟨m, hlen, ht⟩ := ih
    obtain ⟨l, hlt, hu⟩ := hstep t e u m ht next
    refine ⟨l, ?_, hu⟩
    simp only [List.length_append, List.length_singleton]
    omega

/-- Where every step lowers a bound, a path leads to a state that has no step. -/
theorem exists_stuck_of_lowers {B : σ → Nat → Prop}
    (hstep : ∀ s e t n, B s n → M.step s e = some t → ∃ m, m < n ∧ B t m)
    {s : σ} {n : Nat} (hs : B s n) :
    ∃ t trace, Path M s trace t ∧ ∀ e, M.step t e = none := by
  induction n using Nat.strongRecOn generalizing s with
  | ind n ih =>
    by_cases hstuck : ∀ e, M.step s e = none
    · exact ⟨s, [], .nil s, hstuck⟩
    · obtain ⟨e, he⟩ := Classical.not_forall.mp hstuck
      obtain ⟨t, ht⟩ := Option.ne_none_iff_exists'.mp he
      obtain ⟨m, hlt, hbound⟩ := hstep s e t n hs ht
      obtain ⟨u, trace, path, hu⟩ := ih m hlt hbound
      exact ⟨u, _, .cons ht path, hu⟩

theorem exists_stuck (measure : σ → Nat)
    (hstep : ∀ s e t, M.step s e = some t → measure t < measure s) (s : σ) :
    ∃ t trace, Path M s trace t ∧ ∀ e, M.step t e = none := by
  refine exists_stuck_of_lowers (B := fun s n => measure s = n) ?_ rfl
  rintro s e t n rfl ht
  exact ⟨measure t, hstep s e t ht, rfl⟩

/-- `f` maps every step of `M` to a replay of `N`: `N` keeps what `f` shows of `M`. -/
structure Refines (M : Machine σ ε) (N : Machine τ δ) (f : σ → τ) : Prop where
  init : ∀ s, M.init s → N.init (f s)
  step : ∀ s e t, M.step s e = some t → ∃ events, exec N (f s) events = some (f t)

theorem Refines.reachable {f : σ → τ} (h : Refines M N f) {s : σ} (hs : Reachable M s) :
    Reachable N (f s) := by
  refine hs.induct (P := fun s => Reachable N (f s)) (fun s hi => .start (h.init s hi)) ?_
  intro s e t hr hst
  obtain ⟨events, he⟩ := h.step s e t hst
  obtain ⟨trace, path, _⟩ := exec_path he
  exact hr.extend path

/-- A machine refines its part `f` where each event makes at most one step there. -/
theorem Refines.guarded_part {init : σ → Prop} {enabled : σ → ε → Prop}
    [∀ s e, Decidable (enabled s e)] {next : σ → ε → σ} {init' : τ → Prop}
    {enabled' : τ → δ → Prop} [∀ s e, Decidable (enabled' s e)] {next' : τ → δ → τ} {f : σ → τ}
    (on : ε → Option δ) (hinit : ∀ s, init s → init' (f s))
    (hnext : ∀ s e, f (next s e) = (on e).elim (f s) (next' (f s)))
    (henabled : ∀ s e, enabled s e → ∀ d, on e = some d → enabled' (f s) d) :
    Refines (guarded init enabled next) (guarded init' enabled' next') f := by
  refine ⟨hinit, fun s e t hst => ?_⟩
  obtain ⟨he, rfl⟩ := guarded_step.mp hst
  rw [hnext]
  cases hon : on e with
  | none => exact ⟨[], rfl⟩
  | some d =>
    have hstep : (guarded init' enabled' next').step (f s) d = some (next' (f s) d) :=
      guarded_step.mpr ⟨henabled s e he d hon, rfl⟩
    exact ⟨[d], exec_step hstep []⟩

end TransitionSystem
