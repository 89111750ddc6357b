import Uip.TransitionSystem
import Mathlib.Algebra.Order.BigOperators.Group.Finset
import Mathlib.Data.Set.Finite.Lemmas

/-!
# Tasks that share read-write locks

A task runs a list of operations and releases the guards it holds in the opposite order of their
acquisition. A reader waits while a writer holds the lock or waits for it, a writer while anybody
holds it. Where locks are taken in an order, only a lock that is read twice can bring a deadlock.
-/
namespace RwLocks
open TransitionSystem

inductive Mode
  | read
  | write
  deriving DecidableEq

structure Guard (L : Type*) where
  lock : L
  mode : Mode
  deriving DecidableEq

inductive Op (L : Type*)
  | acquire (guard : Guard L)
  | release
  deriving DecidableEq

variable {L T : Type*}

/-- The guard lives as long as the body runs. -/
def hold (g : Guard L) (body : List (Op L)) : List (Op L) := .acquire g :: (body ++ [.release])

/-- The guard taken last stands first. -/
structure Task (L : Type*) where
  held : List (Guard L)
  waiting : Bool
  rest : List (Op L)
  deriving DecidableEq

def Guard.conflicts (g h : Guard L) : Prop := g.lock = h.lock ∧ (g.mode = .write ∨ h.mode = .write)

instance [DecidableEq L] (g h : Guard L) : Decidable (g.conflicts h) :=
  inferInstanceAs (Decidable (_ ∧ _))

namespace Task

def start (program : List (Op L)) : Task L := ⟨[], false, program⟩

def upcoming (t : Task L) : Option (Guard L) :=
  match t.rest with
  | .acquire g :: _ => some g
  | _ => none

/-- The guard that the task waits for. -/
def wants (t : Task L) : Option (Guard L) := if t.waiting then t.upcoming else none

/-- The task `t` has to wait for `u`, which may be `t` itself. -/
def waitsFor (t u : Task L) : Prop :=
  ∃ g ∈ t.wants, (∃ h ∈ u.held, g.conflicts h) ∨ (g.mode = .read ∧ u.wants = some ⟨g.lock, .write⟩)

instance [DecidableEq L] (t u : Task L) : Decidable (t.waitsFor u) :=
  inferInstanceAs (Decidable (∃ _, _))

def acquire (t : Task L) : Task L :=
  match t.rest with
  | .acquire g :: rest => ⟨g :: t.held, false, rest⟩
  | _ => t

def release (t : Task L) : Task L := ⟨t.held.tail, false, t.rest.tail⟩

end Task

inductive Event (T : Type*)
  | request (t : T)
  | acquire (t : T)
  | release (t : T)
  deriving DecidableEq

def Event.task : Event T → T
  | .request t | .acquire t | .release t => t

section Machine
variable [DecidableEq L] [Fintype T] [DecidableEq T]

def enabled (s : T → Task L) : Event T → Prop
  | .request t => (s t).waiting = false ∧ (s t).upcoming.isSome = true
  | .acquire t => (s t).wants.isSome = true ∧ ∀ u, ¬ (s t).waitsFor (s u)
  | .release t => (s t).rest.head? = some .release

instance (s : T → Task L) (e : Event T) : Decidable (enabled s e) := by
  cases e <;> dsimp only [enabled] <;> infer_instance

def next (s : T → Task L) : Event T → T → Task L
  | .request t => Function.update s t { s t with waiting := true }
  | .acquire t => Function.update s t (s t).acquire
  | .release t => Function.update s t (s t).release

def machine (init : (T → Task L) → Prop) : Machine (T → Task L) (Event T) :=
  guarded init enabled next

end Machine

/-- A non-empty set of tasks each of which waits for one of the set. -/
def Deadlocked (s : T → Task L) (tasks : Set T) : Prop :=
  tasks.Nonempty ∧ ∀ t ∈ tasks, ∃ u ∈ tasks, (s t).waitsFor (s u)

namespace Task

variable {t u : Task L} {g : Guard L}

theorem upcoming_eq_some : t.upcoming = some g ↔ ∃ rest, t.rest = .acquire g :: rest := by
  unfold upcoming
  cases t.rest with
  | nil => simp
  | cons op rest => cases op <;> simp

theorem wants_eq_some : t.wants = some g ↔ t.waiting = true ∧ t.upcoming = some g := by
  simp [wants]

theorem rest_of_wants (h : t.wants = some g) : ∃ rest, t.rest = .acquire g :: rest :=
  upcoming_eq_some.mp (wants_eq_some.mp h).2

theorem acquire_of_wants {rest : List (Op L)} (h : t.rest = .acquire g :: rest) :
    t.acquire = ⟨g :: t.held, false, rest⟩ := by
  simp [acquire, h]

end Task

section Orders

variable (rank : L → ℕ)

/-- With `h` in hand the guard `g` may be taken: its lock comes later, or both read one lock. -/
def Guard.before (h g : Guard L) : Prop := rank h.lock < rank g.lock ∨ (h.mode = .read ∧ g = h)

/-- Operations that take locks in their order and leave no guard behind, where `held` is in hand
before. -/
def Ordered : List (Guard L) → List (Op L) → Prop
  | held, [] => held = []
  | held, .acquire g :: rest => (∀ h ∈ held, h.before rank g) ∧ Ordered (g :: held) rest
  | [], .release :: _ => False
  | _ :: held, .release :: rest => Ordered held rest

def Fits (held : List (Guard L)) (program : List (Op L)) : Prop :=
  ∀ rest, Ordered rank held rest → Ordered rank held (program ++ rest)

variable {rank} {held : List (Guard L)}

theorem Fits.nil : Fits rank held [] := fun _ h => h

theorem Fits.append {a b : List (Op L)} (ha : Fits rank held a) (hb : Fits rank held b) :
    Fits rank held (a ++ b) := by
  intro rest h
  rw [List.append_assoc]
  exact ha _ (hb _ h)

theorem Fits.flatMap {α : Type*} {f : α → List (Op L)} (h : ∀ a, Fits rank held (f a))
    (xs : List α) : Fits rank held (xs.flatMap f) := by
  induction xs with
  | nil => exact .nil
  | cons x xs ih => exact (h x).append ih

theorem Fits.hold {g : Guard L} {body : List (Op L)} (hg : ∀ h ∈ held, h.before rank g)
    (hbody : Fits rank (g :: held) body) : Fits rank held (hold g body) := by
  intro rest h
  rw [RwLocks.hold, List.cons_append, List.append_assoc]
  exact ⟨hg, hbody _ h⟩

theorem Fits.ordered {program : List (Op L)} (h : Fits rank [] program) :
    Ordered rank [] program := by
  simpa using h [] rfl

def Task.Ordered (rank : L → ℕ) (t : Task L) : Prop := RwLocks.Ordered rank t.held t.rest

theorem Task.Ordered.before {t : Task L} (h : t.Ordered rank) {g : Guard L}
    (hg : t.wants = some g) : ∀ k ∈ t.held, k.before rank g := by
  obtain ⟨rest, hrest⟩ := Task.rest_of_wants hg
  rw [Task.Ordered, hrest] at h
  exact h.1

theorem Task.Ordered.rest {t : Task L} (h : t.Ordered rank) (hheld : t.held ≠ []) :
    t.rest.head? = some .release ∨ t.upcoming.isSome = true := by
  unfold Task.Ordered at h
  cases hrest : t.rest with
  | nil =>
    rw [hrest] at h
    exact absurd h hheld
  | cons op rest =>
    cases op with
    | acquire g => simp [Task.upcoming, hrest]
    | release => simp

end Orders

section Rereads

/-- Of the guards in `held`, over which `inner` others have been taken since, one reads the lock
and is kept until the lock is read again. -/
def Rereads (l : L) : List (Guard L) → ℕ → List (Op L) → Prop
  | _, _, [] => False
  | held, inner, .acquire g :: rest =>
    (g = ⟨l, .read⟩ ∧ g ∈ held) ∨ Rereads l held (inner + 1) rest
  | held, inner + 1, .release :: rest => Rereads l held inner rest
  | held, 0, .release :: rest => Rereads l held.tail 0 rest

/-- The task holds the lock for reading, and is to read it again before it releases it. -/
def Task.rereads (t : Task L) (l : L) : Prop := Rereads l t.held 0 t.rest

variable {l : L} {g : Guard L} {held : List (Guard L)} {inner : ℕ} {rest : List (Op L)}

theorem Rereads.mem (h : Rereads l held inner rest) : ⟨l, .read⟩ ∈ held := by
  induction rest generalizing held inner with
  | nil => exact h.elim
  | cons op rest ih =>
    cases op with
    | acquire g =>
      rcases h with ⟨rfl, hmem⟩ | h
      · exact hmem
      · exact ih h
    | release =>
      cases inner with
      | zero => exact List.mem_of_mem_tail (ih h)
      | succ inner => exact ih h

theorem Rereads.cons (h : Rereads l held (inner + 1) rest) : Rereads l (g :: held) inner rest := by
  induction rest generalizing inner with
  | nil => exact h
  | cons op rest ih =>
    cases op with
    | acquire k => exact h.imp (fun hk => ⟨hk.1, List.mem_cons_of_mem g hk.2⟩) ih
    | release =>
      cases inner with
      | zero => exact h
      | succ inner => exact ih h

theorem Rereads.of_cons (hg : g ≠ ⟨l, .read⟩) (h : Rereads l (g :: held) inner rest) :
    Rereads l held (inner + 1) rest := by
  induction rest generalizing inner with
  | nil => exact h
  | cons op rest ih =>
    cases op with
    | acquire k =>
      refine h.imp (fun hk => ⟨hk.1, ?_⟩) ih
      rcases List.mem_cons.mp hk.2 with hkg | hmem
      · exact absurd (hkg.symm.trans hk.1) hg
      · exact hmem
    | release =>
      cases inner with
      | zero => exact h
      | succ inner => exact ih h

namespace Task

variable {t u : Task L}

theorem waitsFor_writer (ht : t.wants = some ⟨l, .read⟩) (hu : u.wants = some ⟨l, .write⟩) :
    t.waitsFor u := ⟨_, ht, .inr ⟨rfl, hu⟩⟩

theorem waitsFor_reader (ht : t.wants = some ⟨l, .write⟩) (hu : u.rereads l) : t.waitsFor u :=
  ⟨_, ht, .inl ⟨_, hu.mem, rfl, .inl rfl⟩⟩

end Task

end Rereads

section Steps
variable [DecidableEq T] {rank : L → ℕ} {s : T → Task L} {e : Event T} {l : L} {g : Guard L}

inductive TaskStep (s : T → Task L) (e : Event T) (u : T) : Task L → Prop
  | same (other : e.task ≠ u) : TaskStep s e u (s u)
  | request (event : e = .request u) (idle : (s u).waiting = false)
      (acquires : (s u).upcoming.isSome = true) : TaskStep s e u { s u with waiting := true }
  | acquire (g : Guard L) (rest : List (Op L)) (event : e = .acquire u)
      (waits : (s u).wants = some g) (acquires : (s u).rest = .acquire g :: rest)
      (free : ∀ v, ¬ (s u).waitsFor (s v)) : TaskStep s e u ⟨g :: (s u).held, false, rest⟩
  | release (rest : List (Op L)) (event : e = .release u)
      (releases : (s u).rest = .release :: rest) :
      TaskStep s e u ⟨(s u).held.tail, false, rest⟩

theorem next_task (he : enabled s e) (u : T) : TaskStep s e u (next s e u) := by
  by_cases hu : e.task = u
  · subst hu
    cases e with
    | request t =>
      simp only [next, Event.task, Function.update_self]
      exact .request rfl he.1 he.2
    | acquire t =>
      obtain ⟨g, hg⟩ := Option.isSome_iff_exists.mp he.1
      obtain ⟨rest, hrest⟩ := Task.rest_of_wants hg
      simp only [next, Event.task, Function.update_self, Task.acquire_of_wants hrest]
      exact .acquire g rest rfl hg hrest he.2
    | release t =>
      obtain ⟨rest, hrest⟩ := List.head?_eq_some_iff.mp he
      simp only [next, Event.task, Function.update_self, Task.release, hrest]
      exact .release rest rfl hrest
  · have hother : next s e u = s u := by
      cases e <;> exact Function.update_of_ne (Ne.symm hu) _ _
    rw [hother]
    exact .same hu

theorem ordered_next (h : ∀ t, (s t).Ordered rank) (he : enabled s e) (t : T) :
    (next s e t).Ordered rank := by
  have ht := h t
  have hstep := next_task he t
  generalize next s e t = task at hstep
  cases hstep with
  | same => exact ht
  | request event idle acquires => exact ht
  | acquire g rest event waits acquires free =>
    rw [Task.Ordered, acquires] at ht
    exact ht.2
  | release rest event releases =>
    rw [Task.Ordered, releases] at ht
    cases hheld : (s t).held with
    | nil =>
      rw [hheld] at ht
      exact ht.elim
    | cons k held =>
      rw [hheld] at ht
      exact ht

theorem wants_of_next (he : enabled s e) {t : T} (h : (next s e t).wants = some g) :
    (s t).wants = some g ∨ (e = .request t ∧ (s t).upcoming = some g) := by
  have hstep := next_task he t
  generalize next s e t = task at hstep h
  cases hstep with
  | same => exact .inl h
  | request event idle acquires => exact .inr ⟨event, h⟩
  | acquire | release => cases h

theorem rereads_of_next (he : enabled s e) {t : T} (h : (next s e t).rereads l) :
    (s t).rereads l ∨ (e = .acquire t ∧ (s t).wants = some ⟨l, .read⟩) := by
  have hstep := next_task he t
  generalize next s e t = task at hstep h
  cases hstep with
  | same => exact .inl h
  | request event idle acquires => exact .inl h
  | acquire g rest event waits acquires free =>
    by_cases hg : g = ⟨l, .read⟩
    · exact .inr ⟨event, hg ▸ waits⟩
    · refine .inl ?_
      rw [Task.rereads, acquires]
      exact .inr (Rereads.of_cons hg h)
  | release rest event releases =>
    refine .inl ?_
    rw [Task.rereads, releases]
    exact h

/-- Nobody waits to write a lock that a task has read and is to read again. -/
def Unread (s : T → Task L) : Prop :=
  ∀ t l, (s t).wants = some ⟨l, .write⟩ → ∀ u, ¬ (s u).rereads l

def quiet (s : T → Task L) : Event T → Prop
  | .request t => ∀ l, (s t).upcoming = some ⟨l, .write⟩ → ∀ u, ¬ (s u).rereads l
  | _ => True

theorem Unread.next (h : Unread s) (hq : quiet s e) (he : enabled s e) : Unread (next s e) := by
  intro t l ht u hu
  rcases wants_of_next he ht with hold | ⟨rfl, hnew⟩
  · rcases rereads_of_next he hu with hkeeps | ⟨rfl, hwants⟩
    · exact h t l hold u hkeeps
    · exact he.2 t (Task.waitsFor_writer hwants hold)
  · rcases rereads_of_next he hu with hkeeps | ⟨hevent, _⟩
    · exact hq l hnew u hkeeps
    · cases hevent

end Steps

section Deadlocks
variable {rank : L → ℕ} {s : T → Task L}

/-- A task that waits for the holder of a guard, where the holder waits for no later lock, waits to
write, and the holder to read again. -/
theorem rereads_of_holder {u : Task L} (hu : u.Ordered rank) {g k h : Guard L} (hk : k ∈ u.held)
    (hc : g.conflicts k) (hw : u.wants = some h) (hle : rank h.lock ≤ rank g.lock) :
    g = ⟨g.lock, .write⟩ ∧ u.rereads g.lock := by
  obtain ⟨hlock, hmode⟩ := hc
  rcases hu.before hw k hk with hlt | ⟨hread, rfl⟩
  · rw [hlock] at hle
    omega
  · obtain ⟨rest, hrest⟩ := Task.rest_of_wants hw
    have hwrite : g.mode = .write := hmode.resolve_right (by simp [hread])
    have hguard : h = ⟨g.lock, .read⟩ := by
      rw [hlock, ← hread]
    refine ⟨by rw [← hwrite], ?_⟩
    rw [Task.rereads, hrest]
    exact .inl ⟨hguard, hk⟩

/-- In a deadlock, somebody waits to write a lock that a task has read and is to read again. -/
theorem Unread.not_deadlocked [Finite T] (h : Unread s) (hord : ∀ t, (s t).Ordered rank)
    (tasks : Set T) : ¬ Deadlocked s tasks := by
  rintro ⟨hne, hwaits⟩
  let last (t : T) : ℕ := (s t).wants.elim 0 fun g => rank g.lock
  have hlast : ∀ {t g}, (s t).wants = some g → last t = rank g.lock := by
    intro t g hg
    simp only [last, hg, Option.elim_some]
  -- A task that waits for the last lock anybody waits for.
  obtain ⟨m, hm, hmax⟩ := Set.exists_max_image tasks last tasks.toFinite hne
  have hwriter : ∀ t ∈ tasks, ∀ g, (s t).wants = some g → last t = last m → ∀ u ∈ tasks,
      ∀ k ∈ (s u).held, ¬ g.conflicts k := by
    intro t ht g hg hsame u hu k hk hc
    obtain ⟨v, _, i, hi, _⟩ := hwaits u hu
    have hle := hmax u hu
    rw [← hsame, hlast hi, hlast hg] at hle
    obtain ⟨hwrite, hreads⟩ := rereads_of_holder (hord u) hk hc hi hle
    exact h t g.lock (hwrite ▸ hg) u hreads
  obtain ⟨u, hu, g, hg, hblock⟩ := hwaits m hm
  rcases hblock with ⟨k, hk, hc⟩ | ⟨_, hw⟩
  · exact hwriter m hm g hg rfl u hu k hk hc
  · obtain ⟨v, hv, i, hi, hblock⟩ := hwaits u hu
    obtain rfl := Option.some.inj (hi.symm.trans hw)
    rcases hblock with ⟨k, hk, hc⟩ | ⟨hread, _⟩
    · exact hwriter u hu _ hw ((hlast hw).trans (hlast hg).symm) v hv k hk hc
    · cases hread

theorem deadlocked_of_stuck (hord : ∀ t, (s t).Ordered rank) (hstuck : ∀ e, ¬ enabled s e)
    {w : T} (hw : (s w).wants.isSome = true) : Deadlocked s {t | (s t).wants.isSome = true} := by
  refine ⟨⟨w, hw⟩, fun t ht => ?_⟩
  obtain ⟨u, hu⟩ : ∃ u, (s t).waitsFor (s u) := by
    by_contra hnone
    exact hstuck (.acquire t) ⟨ht, not_exists.mp hnone⟩
  refine ⟨u, ?_, hu⟩
  obtain ⟨g, -, ⟨k, hk, -⟩ | ⟨-, hwants⟩⟩ := hu
  · rcases (hord u).rest (List.ne_nil_of_mem hk) with hrelease | hacquire
    · exact absurd hrelease (hstuck (.release u))
    · have hwaiting : (s u).waiting ≠ false := fun hidle => hstuck (.request u) ⟨hidle, hacquire⟩
      simpa [Task.wants, hwaiting] using hacquire
  · exact Option.isSome_iff_exists.mpr ⟨_, hwants⟩

variable [DecidableEq T] {e : Event T} {w u : T} {l : L}

/-- A writer and the task that is to read the lock again keep each other from going on. -/
structure Doomed (s : T → Task L) (w u : T) (l : L) : Prop where
  writer : (s w).wants = some ⟨l, .write⟩
  reader : (s u).rereads l

theorem Doomed.next (h : Doomed s w u l) (he : enabled s e) : Doomed (next s e) w u l := by
  constructor
  · have hw := h.writer
    have hstep := next_task he w
    generalize RwLocks.next s e w = task at hstep
    cases hstep with
    | same => exact hw
    | request event idle acquires => cases idle.symm.trans (Task.wants_eq_some.mp hw).1
    | acquire g rest event waits acquires free =>
      exact absurd (Task.waitsFor_reader hw h.reader) (free u)
    | release rest event releases =>
      obtain ⟨rest', hrest⟩ := Task.rest_of_wants hw
      cases hrest.symm.trans releases
  · have hu := h.reader
    have hstep := next_task he u
    generalize RwLocks.next s e u = task at hstep
    cases hstep with
    | same => exact hu
    | request event idle acquires => exact hu
    | acquire g rest event waits acquires free =>
      rw [Task.rereads, acquires] at hu
      rcases hu with ⟨rfl, _⟩ | hu
      · exact absurd (Task.waitsFor_writer waits h.writer) (free w)
      · exact hu.cons
    | release rest event releases =>
      rw [Task.rereads, releases] at hu
      exact hu

def Task.weight (t : Task L) : ℕ := 2 * t.rest.length + if t.waiting then 0 else 1

theorem weight_next (he : enabled s e) (t : T) :
    (next s e t).weight ≤ (s t).weight ∧ (e.task = t → (next s e t).weight < (s t).weight) := by
  have hstep := next_task he t
  generalize next s e t = task at hstep
  cases hstep with
  | same other => exact ⟨Nat.le_refl _, fun h => absurd h other⟩
  | request event idle acquires => simp [Task.weight, idle]
  | acquire g rest event waits acquires free =>
    simp only [Task.weight, acquires, List.length_cons, Bool.false_eq_true, if_false]
    split <;> omega
  | release rest event releases =>
    simp only [Task.weight, releases, List.length_cons, Bool.false_eq_true, if_false]
    split <;> omega

variable [Fintype T] [DecidableEq L] {init : (T → Task L) → Prop}

/-- Any other step than a quiet one can be followed by a deadlock. -/
theorem deadlocks_of_not_quiet (hord : ∀ t, (s t).Ordered rank) (he : enabled s e)
    (hq : ¬ quiet s e) : ∃ t trace, Path (machine init) (next s e) trace t ∧
      ∃ tasks, Deadlocked t tasks := by
  obtain ⟨w, u, l, hdoomed⟩ : ∃ w u l, Doomed (next s e) w u l := by
    cases e with
    | request t =>
      obtain ⟨l, hl⟩ := Classical.not_forall.mp hq
      obtain ⟨hwrite, hl⟩ := Classical.not_imp.mp hl
      obtain ⟨u, hu⟩ := Classical.not_forall.mp hl
      have hreads := Classical.not_not.mp hu
      refine ⟨t, u, l, by simpa [next, Task.wants, Task.upcoming] using hwrite, ?_⟩
      by_cases hut : u = t
      · subst hut
        simpa [next, Task.rereads] using hreads
      · simpa [next, hut] using hreads
    | acquire | release => exact absurd trivial hq
  obtain ⟨t, trace, path, hstuck⟩ := exists_stuck (M := machine init)
    (fun s : T → Task L => ∑ t, (s t).weight) (fun s e t hst => by
      obtain ⟨he, rfl⟩ := guarded_step.mp hst
      exact Finset.sum_lt_sum (fun x _ => (weight_next he x).1)
        ⟨e.task, Finset.mem_univ _, (weight_next he _).2 rfl⟩) (next s e)
  have hfinal := (path.guarded_invariant (G := fun _ _ => True)
    (P := fun s => (∀ t, (s t).Ordered rank) ∧ Doomed s w u l)
    (fun s e h _ he => ⟨ordered_next h.1 he, h.2.next he⟩) ⟨ordered_next hord he, hdoomed⟩
    fun _ _ => trivial).1
  refine ⟨t, trace, path, _, deadlocked_of_stuck hfinal.1 (fun e he => ?_)
    (Option.isSome_iff_exists.mpr ⟨_, hfinal.2.writer⟩)⟩
  have hstep : (machine init).step t e = some (next t e) := guarded_step.mpr ⟨he, rfl⟩
  cases (hstuck e).symm.trans hstep

end Deadlocks

end RwLocks
