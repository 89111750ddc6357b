import Mathlib.Data.List.AList

/-!
# Bounded queues and keyed maps

A bounded queue carries its capacity bound, so that an overfull one cannot be built: `push`
answers `none` where a sender has to wait for room, and `pop` where a receiver has to wait
for an item.
-/

structure BoundedQueue (α : Type*) (capacity : ℕ) where
  items : List α
  bounded : items.length ≤ capacity

namespace BoundedQueue

variable {α : Type*} {capacity : ℕ}

def empty : BoundedQueue α capacity := ⟨[], Nat.zero_le _⟩

def full (q : BoundedQueue α capacity) : Bool := q.items.length == capacity

def push (q : BoundedQueue α capacity) (x : α) : Option (BoundedQueue α capacity) :=
  if h : q.items.length < capacity then
    some ⟨q.items ++ [x], List.length_append ▸ h⟩
  else none

def pop (q : BoundedQueue α capacity) : Option (α × BoundedQueue α capacity) :=
  match q with
  | ⟨[], _⟩ => none
  | ⟨x :: xs, h⟩ => some (x, ⟨xs, Nat.le_of_succ_le h⟩)

@[ext] theorem ext {q r : BoundedQueue α capacity} (h : q.items = r.items) : q = r := by
  cases q; cases r; simpa using h

@[simp] theorem empty_items : (empty : BoundedQueue α capacity).items = [] := rfl

theorem full_iff {q : BoundedQueue α capacity} : q.full = true ↔ q.items.length = capacity := by
  simp [full]

theorem push_eq_some {q r : BoundedQueue α capacity} {x : α} :
    q.push x = some r ↔ r.items = q.items ++ [x] := by
  unfold push
  split_ifs with h
  · rw [Option.some.injEq]
    exact ⟨fun hr => hr ▸ rfl, fun hr => ext hr.symm⟩
  · simp only [false_iff]
    intro hr
    have hb := r.bounded
    rw [hr, List.length_append, List.length_singleton] at hb
    omega

theorem push_eq_none {q : BoundedQueue α capacity} {x : α} :
    q.push x = none ↔ q.full = true := by
  have := q.bounded
  simp only [push, dite_eq_right_iff, reduceCtorEq, imp_false, full_iff]
  omega

theorem pop_eq_some {q r : BoundedQueue α capacity} {x : α} :
    q.pop = some (x, r) ↔ q.items = x :: r.items := by
  obtain ⟨xs, h⟩ := q
  cases xs with
  | nil => simp [pop]
  | cons y ys =>
    simp only [pop, Option.some.injEq, Prod.mk.injEq, List.cons.injEq]
    exact and_congr_right fun _ => ⟨fun hr => hr ▸ rfl, fun hr => ext hr⟩

theorem pop_eq_none {q : BoundedQueue α capacity} : q.pop = none ↔ q.items = [] := by
  obtain ⟨xs, h⟩ := q
  cases xs <;> simp [pop]

theorem push_items {q : BoundedQueue α capacity} (h : q.full = false) (x : α) :
    ((q.push x).getD q).items = q.items ++ [x] := by
  cases hp : q.push x with
  | none => simp [push_eq_none.mp hp] at h
  | some r => exact push_eq_some.mp hp

theorem pop_items (q : BoundedQueue α capacity) :
    ((q.pop.map Prod.snd).getD q).items = q.items.tail := by
  cases hp : q.pop with
  | none => simp [pop_eq_none.mp hp]
  | some r => simp [pop_eq_some.mp hp]

theorem pop_full {q : BoundedQueue α capacity} {x : α} (h : q.items.head? = some x) :
    ((q.pop.map Prod.snd).getD q).full = false := by
  obtain ⟨rest, hrest⟩ := List.head?_eq_some_iff.mp h
  have hbound := q.bounded
  rw [← Bool.not_eq_true, full_iff, pop_items]
  rw [hrest] at hbound ⊢
  simp only [List.length_cons, List.tail_cons] at hbound ⊢
  omega

end BoundedQueue

abbrev HashMap (α β : Type*) := AList fun _ : α => β

namespace HashMap

variable {α β : Type*} [DecidableEq α]

theorem lookup_insert_if (m : HashMap α β) (a b : α) (v : β) :
    (m.insert a v).lookup b = if b = a then some v else m.lookup b := by
  split_ifs with h
  · rw [h, AList.lookup_insert]
  · exact AList.lookup_insert_ne h

theorem lookup_erase_if (m : HashMap α β) (a b : α) :
    (m.erase a).lookup b = if b = a then none else m.lookup b := by
  split_ifs with h
  · rw [h, AList.lookup_erase]
  · exact AList.lookup_erase_ne h

end HashMap
