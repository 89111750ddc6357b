import Uip.ItemQueues
import Mathlib.Data.List.Infix

/-!
# Pipelines of queues

A pipeline is a list of places, the last stop first. Items that only go from the front of a queue
to the end of the queue of the next stop, or leave the pipeline, do not overtake each other.
-/
namespace ItemQueues

variable {ι ν : Type*} {β : ι → Type*} {q : Queues ν β} {p : ν → Bool} {stops : List ι} {x y : ι}
  {n : ν} {b : β y}

/-- The numbers in a pipeline that pass a test, the one that has come farthest first. -/
def contents (p : ν → Bool) (stops : List ι) (q : Queues ν β) : List ν :=
  stops.flatMap fun x => (numbers q x).filter p

theorem contents_cons (x : ι) (stops : List ι) (q : Queues ν β) :
    contents p (x :: stops) q = (numbers q x).filter p ++ contents p stops q := rfl

theorem contents_append (a c : List ι) (q : Queues ν β) :
    contents p (a ++ c) q = contents p a q ++ contents p c q := List.flatMap_append

theorem mem_contents {m : ν} :
    m ∈ contents p stops q ↔ p m = true ∧ ∃ x ∈ stops, m ∈ numbers q x := by
  simp only [contents, List.mem_flatMap, List.mem_filter]
  constructor
  · rintro ⟨x, hx, hm, hp⟩
    exact ⟨hp, x, hx, hm⟩
  · rintro ⟨hp, x, hx, hm⟩
    exact ⟨x, hx, hm, hp⟩

theorem contents_congr {r : Queues ν β}
    (h : ∀ x ∈ stops, (numbers r x).filter p = (numbers q x).filter p) :
    contents p stops r = contents p stops q := by
  induction stops with
  | nil => rfl
  | cons x stops ih =>
    rw [contents_cons, contents_cons, h x List.mem_cons_self]
    rw [ih fun z hz => h z (List.mem_cons_of_mem x hz)]

theorem contents_sublist {r : Queues ν β}
    (h : ∀ x ∈ stops, ((numbers r x).filter p).Sublist ((numbers q x).filter p)) :
    (contents p stops r).Sublist (contents p stops q) := by
  induction stops with
  | nil => exact List.Sublist.slnil
  | cons x stops ih =>
    rw [contents_cons, contents_cons]
    exact (h x List.mem_cons_self).append (ih fun z hz => h z (List.mem_cons_of_mem x hz))

section Steps
variable [DecidableEq ι]

theorem contents_push_of_not_mem (h : y ∉ stops) (n : ν) (b : β y) :
    contents p stops (push q y n b) = contents p stops q := by
  refine contents_congr fun x hx => ?_
  rw [numbers_push, if_neg]
  rintro rfl
  exact h hx

theorem contents_push_of_not (hp : p n = false) (b : β y) :
    contents p stops (push q y n b) = contents p stops q := by
  refine contents_congr fun x _ => ?_
  rw [numbers_push]
  split_ifs
  · simp [hp]
  · rfl

theorem contents_push_start {before : List ι} (hy : y ∉ before) (hp : p n = true) (b : β y) :
    contents p (before ++ [y]) (push q y n b) = contents p (before ++ [y]) q ++ [n] := by
  rw [contents_append, contents_append, contents_push_of_not_mem hy]
  simp [contents, numbers_push, hp]

variable [DecidableEq ν]

theorem contents_erase_sublist (x : ι) (n : ν) :
    (contents p stops (erase q x n)).Sublist (contents p stops q) := by
  refine contents_sublist fun z _ => ?_
  rw [numbers_erase]
  split_ifs
  · exact List.erase_sublist.filter p
  · exact List.Sublist.refl _

theorem contents_erase_of_not (hp : p n = false) (x : ι) :
    contents p stops (erase q x n) = contents p stops q := by
  refine contents_congr fun z _ => ?_
  rw [numbers_erase]
  split_ifs
  · have hnot : n ∉ (numbers q z).filter p := by simp [hp]
    rw [← List.erase_of_not_mem hnot, List.erase_filter]
  · rfl

theorem contents_erase_of_not_mem (h : x ∉ stops) (n : ν) :
    contents p stops (erase q x n) = contents p stops q := by
  refine contents_congr fun z hz => ?_
  rw [numbers_erase, if_neg]
  rintro rfl
  exact h hz

theorem contents_pass_of_not (hp : p n = false) (x : ι) (b : β y) :
    contents p stops (push (erase q x n) y n b) = contents p stops q := by
  rw [contents_push_of_not hp, contents_erase_of_not hp]

/-- What leaves the pipeline leaves the order of the others. -/
theorem contents_pass_out (hy : y ∉ stops) (x : ι) (n : ν) (b : β y) :
    (contents p stops (push (erase q x n) y n b)).Sublist (contents p stops q) := by
  rw [contents_push_of_not_mem hy]
  exact contents_erase_sublist x n

/-- The first item that passes the test goes to the next stop, behind all that are there. -/
theorem contents_pass_next {before after : List ι} (hstops : (before ++ y :: x :: after).Nodup)
    (first : ((numbers q x).filter p).head? = some n) (b : β y) :
    contents p (before ++ y :: x :: after) (push (erase q x n) y n b) =
      contents p (before ++ y :: x :: after) q := by
  obtain ⟨rest, hrest⟩ := List.head?_eq_some_iff.mp first
  have hp : p n = true := (List.mem_filter.mp (hrest ▸ List.mem_cons_self)).2
  have hnodup := List.nodup_append.mp hstops
  have hyx := List.nodup_cons.mp hnodup.2.1
  have hx := List.nodup_cons.mp hyx.2
  have hbefore : ∀ z ∈ y :: x :: after, z ∉ before := fun z hz hb =>
    hnodup.2.2 z hb z hz rfl
  have hne : x ≠ y := by
    rintro rfl
    exact hyx.1 List.mem_cons_self
  have hafter : y ∉ after := fun hy => hyx.1 (List.mem_cons_of_mem x hy)
  have herase : ((numbers q x).erase n).filter p = rest := by
    rw [← List.erase_filter, hrest, List.erase_cons_head]
  simp only [contents_append, contents_cons]
  rw [contents_push_of_not_mem (hbefore y List.mem_cons_self),
    contents_erase_of_not_mem (hbefore x (by simp)), contents_push_of_not_mem hafter,
    contents_erase_of_not_mem hx.1]
  simp [numbers_push, numbers_erase, hne, hne.symm, hrest, herase, hp]

theorem head_filter {α : Type*} {p : α → Bool} {a : α} {items : List α}
    (h : items.head? = some a) (hp : p a = true) : (items.filter p).head? = some a := by
  obtain ⟨rest, rfl⟩ := List.head?_eq_some_iff.mp h
  simp [hp]

def Follows (stops : List ι) (x y : ι) : Prop :=
  ∃ m : ℕ, stops[m]? = some y ∧ stops[m + 1]? = some x

/-- An item keeps the order where it goes to the next stop as the first, or leaves. -/
theorem contents_pass (hstops : stops.Nodup) (goes : p n = true →
      Follows stops x y ∧ ((numbers q x).filter p).head? = some n ∨ y ∉ stops) (b : β y) :
    (contents p stops (push (erase q x n) y n b)).Sublist (contents p stops q) := by
  cases hp : p n with
  | false => rw [contents_pass_of_not hp]
  | true =>
    rcases goes hp with ⟨⟨m, hy, hx⟩, first⟩ | hout
    · obtain ⟨hm, rfl⟩ := List.getElem?_eq_some_iff.mp hx
      obtain ⟨hm', rfl⟩ := List.getElem?_eq_some_iff.mp hy
      have hsplit : stops = stops.take m ++ stops[m] :: stops[m + 1] :: stops.drop (m + 2) := by
        rw [← List.drop_eq_getElem_cons hm, ← List.drop_eq_getElem_cons hm', List.take_append_drop]
      have hsame := contents_pass_next (hsplit ▸ hstops) first b
      rw [← hsplit] at hsame
      rw [hsame]
    · exact contents_pass_out hout x n b

end Steps

end ItemQueues
