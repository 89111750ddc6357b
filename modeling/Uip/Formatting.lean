import Mathlib.Data.Set.Basic

/-!
# Formatting by implementations that call each other

The implementation for a value writes texts and has other values formatted, one after another,
until the sink fails. Each call takes one of the frames that the stack has left, and overflows
where there is none.
-/
namespace Formatting

inductive Piece (α V : Type*)
  | literal (text : List α)
  | argument (value : V)
  deriving DecidableEq

/-- The text of a piece where the text of each value is known. -/
def Piece.text {α V : Type*} (shown : V → List α) : Piece α V → List α
  | literal text => text
  | argument value => shown value

abbrev Implementation (α V : Type*) := V → List (Piece α V)

/-- A sink takes a text, or fails and may have taken some of it. -/
structure Sink (α W : Type*) where
  writeStr : W → List α → Except W W

inductive Formatted (W : Type*)
  | done (w : W)
  | failed (w : W)
  | overflow
  deriving DecidableEq

namespace Formatted

variable {W : Type*}

def ofWrite : Except W W → Formatted W
  | .ok w => done w
  | .error w => failed w

def bind (r : Formatted W) (f : W → Formatted W) : Formatted W :=
  match r with
  | done w => f w
  | failed w => failed w
  | overflow => overflow

def returned : Formatted W → Option W
  | done w | failed w => some w
  | overflow => none

@[simp] theorem bind_done (w : W) (f : W → Formatted W) : (done w).bind f = f w := rfl

@[simp] theorem bind_failed (w : W) (f : W → Formatted W) : (failed w).bind f = failed w := rfl

@[simp] theorem bind_overflow (f : W → Formatted W) : overflow.bind f = overflow := rfl

theorem bind_ne_overflow {r : Formatted W} {f : W → Formatted W} (hr : r ≠ overflow)
    (hf : ∀ w, f w ≠ overflow) : r.bind f ≠ overflow := by
  cases r with
  | done w => exact hf w
  | failed w => nofun
  | overflow => exact absurd rfl hr

theorem returned_eq_none {r : Formatted W} : r.returned = none ↔ r = overflow := by
  cases r <;> simp [returned]

end Formatted

namespace Sink

variable {α V W : Type*} (sink : Sink α W)

/-- The pieces are written in order, the arguments by `call`. -/
def write (call : V → W → Formatted W) : List (Piece α V) → W → Formatted W
  | [], w => .done w
  | .literal text :: pieces, w =>
    (Formatted.ofWrite (sink.writeStr w text)).bind (write call pieces)
  | .argument value :: pieces, w => (call value w).bind (write call pieces)

def fmt (impl : Implementation α V) : ℕ → V → W → Formatted W
  | 0, _, _ => .overflow
  | frames + 1, value, w => sink.write (fmt impl frames) (impl value) w

def writeAll (w : W) : List (List α) → Except W W
  | [] => .ok w
  | text :: texts =>
    match sink.writeStr w text with
    | .ok w => writeAll w texts
    | .error w => .error w

variable {sink} {call call' : V → W → Formatted W} {impl : Implementation α V}

theorem write_literals (texts : List (List α)) (pieces : List (Piece α V)) (w : W) :
    sink.write call (texts.map .literal ++ pieces) w =
      (Formatted.ofWrite (sink.writeAll w texts)).bind (sink.write call pieces) := by
  induction texts generalizing w with
  | nil => rfl
  | cons text texts ih =>
    rw [List.map_cons, List.cons_append, write, writeAll]
    cases sink.writeStr w text with
    | ok u => exact ih u
    | error u => rfl

section Frames

theorem write_congr {pieces : List (Piece α V)} {w : W}
    (hcall : ∀ v w, call v w ≠ .overflow → call' v w = call v w)
    (h : sink.write call pieces w ≠ .overflow) :
    sink.write call' pieces w = sink.write call pieces w := by
  induction pieces generalizing w with
  | nil => rfl
  | cons piece pieces ih =>
    cases piece with
    | literal text =>
      simp only [write] at h ⊢
      cases hw : sink.writeStr w text with
      | ok u =>
        rw [hw] at h
        exact ih h
      | error u => rfl
    | argument value =>
      simp only [write] at h ⊢
      have hvalue : call value w ≠ .overflow := by
        intro hover
        rw [hover] at h
        exact h rfl
      rw [hcall value w hvalue]
      cases hr : call value w with
      | done u =>
        rw [hr] at h
        exact ih h
      | failed u => rfl
      | overflow => exact absurd hr hvalue

/-- More frames cannot hurt. -/
theorem fmt_mono {m n : ℕ} (hmn : m ≤ n) {value : V} {w : W}
    (h : sink.fmt impl m value w ≠ .overflow) :
    sink.fmt impl n value w = sink.fmt impl m value w := by
  induction m generalizing n value w with
  | zero => exact absurd rfl h
  | succ m ih =>
    obtain ⟨n, rfl⟩ : ∃ k, n = k + 1 := ⟨n - 1, by omega⟩
    exact write_congr (fun v u hv => ih (by omega) hv) h

end Frames

section Termination
variable {S : Set V}

theorem write_ne_overflow {pieces : List (Piece α V)}
    (hcall : ∀ v, .argument v ∈ pieces → ∀ w, call v w ≠ .overflow) (w : W) :
    sink.write call pieces w ≠ .overflow := by
  induction pieces generalizing w with
  | nil => nofun
  | cons piece pieces ih =>
    have hrest : ∀ u, sink.write call pieces u ≠ .overflow :=
      ih fun v hv => hcall v (List.mem_cons_of_mem _ hv)
    cases piece with
    | literal text =>
      refine Formatted.bind_ne_overflow ?_ hrest
      cases sink.writeStr w text <;> nofun
    | argument value =>
      exact Formatted.bind_ne_overflow (hcall value List.mem_cons_self w) hrest

/-- Formatting ends where the values that an implementation calls for have a smaller measure. -/
theorem fmt_of_measure (μ : V → ℕ)
    (h : ∀ v ∈ S, ∀ u, .argument u ∈ impl v → u ∈ S ∧ μ u < μ v) {frames : ℕ} {value : V}
    (hvalue : value ∈ S) (hframes : μ value < frames) (w : W) :
    sink.fmt impl frames value w ≠ .overflow := by
  induction frames generalizing value w with
  | zero => exact absurd hframes (Nat.not_lt_zero _)
  | succ frames ih =>
    refine write_ne_overflow (fun u hu => ?_) w
    obtain ⟨hmem, hlt⟩ := h value hvalue u hu
    exact ih hmem (by omega)

/-- Formatting never ends where each value's implementation first calls for another of the set. -/
theorem fmt_overflow (h : ∀ v ∈ S, ∃ u ∈ S, ∃ pieces, impl v = .argument u :: pieces)
    (frames : ℕ) {value : V} (hvalue : value ∈ S) (w : W) :
    sink.fmt impl frames value w = .overflow := by
  induction frames generalizing value w with
  | zero => rfl
  | succ frames ih =>
    obtain ⟨u, hu, pieces, himpl⟩ := h value hvalue
    rw [fmt, himpl, write, ih hu w]
    rfl

end Termination

end Sink

section Strings
variable {α V : Type*} {impl : Implementation α V} {frames : ℕ} {value : V} {text : List α}

def string (α : Type*) : Sink α (List α) := ⟨fun w text => .ok (w ++ text)⟩

/-- `to_string` comes to the text. -/
def Displays (impl : Implementation α V) (frames : ℕ) (value : V) (text : List α) : Prop :=
  ∀ w, (string α).fmt impl frames value w = .done (w ++ text)

theorem string_write {call : V → List α → Formatted (List α)} {pieces : List (Piece α V)}
    {shown : V → List α}
    (hcall : ∀ v, .argument v ∈ pieces → ∀ w, call v w = .done (w ++ shown v)) (w : List α) :
    (string α).write call pieces w = .done (w ++ pieces.flatMap (Piece.text shown)) := by
  induction pieces generalizing w with
  | nil => simp [Sink.write]
  | cons piece pieces ih =>
    have hrest := ih fun v hv => hcall v (List.mem_cons_of_mem _ hv)
    rw [List.flatMap_cons, ← List.append_assoc]
    cases piece with
    | literal text => exact hrest (w ++ text)
    | argument value =>
      rw [Sink.write, hcall value List.mem_cons_self w]
      exact hrest (w ++ shown value)

theorem displays_pieces (shown : V → List α)
    (h : ∀ u, .argument u ∈ impl value → Displays impl frames u (shown u)) :
    Displays impl (frames + 1) value ((impl value).flatMap (Piece.text shown)) :=
  string_write h

theorem Displays.mono (h : Displays impl frames value text) {n : ℕ} (hn : frames ≤ n) :
    Displays impl n value text := by
  intro w
  rw [Sink.fmt_mono hn (by rw [h w]; nofun), h w]

theorem Displays.unique {n : ℕ} {other : List α} (h : Displays impl frames value text)
    (hn : Displays impl n value other) : text = other := by
  have hmax := (h.mono (Nat.le_max_left frames n) []).symm.trans
    (hn.mono (Nat.le_max_right frames n) [])
  exact List.append_cancel_left (Formatted.done.inj hmax)

end Strings

end Formatting
