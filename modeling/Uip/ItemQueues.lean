import Mathlib.Data.List.Basic
import Mathlib.Data.List.Nodup
import Mathlib.Logic.Function.Basic

/-!
# Numbered items in queues

Each place has a queue of numbered items, whose contents may be of another type at another place.
An item is pushed to the end of a queue and erased by its number. When every number is pushed
while no queue holds it, no number is ever in two places.
-/
namespace ItemQueues

structure Item (ν α : Type*) where
  number : ν
  content : α
  deriving DecidableEq

abbrev Queues {ι : Type*} (ν : Type*) (β : ι → Type*) := (x : ι) → List (Item ν (β x))

variable {ι ν : Type*} {β : ι → Type*}

def empty : Queues ν β := fun _ => []

def push [DecidableEq ι] (q : Queues ν β) (y : ι) (n : ν) (b : β y) : Queues ν β :=
  Function.update q y (q y ++ [⟨n, b⟩])

def erase [DecidableEq ι] [DecidableEq ν] (q : Queues ν β) (x : ι) (n : ν) : Queues ν β :=
  Function.update q x ((q x).eraseP fun item => item.number = n)

def find [DecidableEq ν] (q : Queues ν β) (x : ι) (n : ν) : Option (β x) :=
  ((q x).find? fun item => item.number = n).map Item.content

def numbers (q : Queues ν β) (x : ι) : List ν := (q x).map Item.number

variable {q : Queues ν β} {x y : ι} {n m : ν} {b : β y}

theorem push_ne_nil [DecidableEq ι] (h : push q y n b x ≠ []) : q x ≠ [] ∨ y = x := by
  by_cases hx : y = x
  · exact .inr hx
  · rw [push, Function.update_of_ne (Ne.symm hx)] at h
    exact .inl h

theorem erase_ne_nil [DecidableEq ι] [DecidableEq ν] (h : erase q y n x ≠ []) : q x ≠ [] := by
  intro hnil
  by_cases hx : x = y
  · subst hx
    simp [erase, hnil] at h
  · simp [erase, hx, hnil] at h

theorem numbers_push [DecidableEq ι] (q : Queues ν β) (x y : ι) (n : ν) (b : β y) :
    numbers (push q y n b) x = if x = y then numbers q x ++ [n] else numbers q x := by
  split_ifs with h
  · subst h
    simp [numbers, push]
  · simp [numbers, push, h]

theorem numbers_erase [DecidableEq ι] [DecidableEq ν] (q : Queues ν β) (x y : ι) (n : ν) :
    numbers (erase q y n) x = if x = y then (numbers q x).erase n else numbers q x := by
  split_ifs with h
  · subst h
    simp only [numbers, erase, Function.update_self, List.erase_eq_eraseP', List.eraseP_map]
    rfl
  · simp [numbers, erase, h]

theorem find_eq_some [DecidableEq ν] {a : β x} (h : find q x n = some a) : ⟨n, a⟩ ∈ q x := by
  obtain ⟨item, hf, rfl⟩ := Option.map_eq_some_iff.mp h
  have hn : item.number = n := by simpa using List.find?_some hf
  subst hn
  exact List.mem_of_find?_eq_some hf

theorem mem_numbers_of_find [DecidableEq ν] {a : β x} (h : find q x n = some a) :
    n ∈ numbers q x :=
  List.mem_map.mpr ⟨_, find_eq_some h, rfl⟩

theorem find_isSome [DecidableEq ν] : (find q x n).isSome = true ↔ n ∈ numbers q x := by
  simp [find, numbers]

/-- All items have a property, which may depend on the place. -/
def All (q : Queues ν β) (P : (x : ι) → ν → β x → Prop) : Prop :=
  ∀ x, ∀ item ∈ q x, P x item.number item.content

section All
variable {P : (x : ι) → ν → β x → Prop}

theorem All.push [DecidableEq ι] (h : All q P) (hb : P y n b) : All (push q y n b) P := by
  intro x item hi
  by_cases hx : x = y
  · subst hx
    rw [ItemQueues.push, Function.update_self] at hi
    rcases List.mem_append.mp hi with hi | hi
    · exact h x item hi
    · obtain rfl := List.mem_singleton.mp hi
      exact hb
  · rw [ItemQueues.push, Function.update_of_ne hx] at hi
    exact h x item hi

theorem All.erase [DecidableEq ι] [DecidableEq ν] (h : All q P) (y : ι) (n : ν) :
    All (erase q y n) P := by
  intro x item hi
  by_cases hx : x = y
  · subst hx
    rw [ItemQueues.erase, Function.update_self] at hi
    exact h x item (List.mem_of_mem_eraseP hi)
  · rw [ItemQueues.erase, Function.update_of_ne hx] at hi
    exact h x item hi

theorem All.of_find [DecidableEq ν] (h : All q P) {a : β x} (hf : find q x n = some a) : P x n a :=
  h x ⟨n, a⟩ (find_eq_some hf)

end All

/-- No number is twice in one place or in two places. -/
structure Once (q : Queues ν β) : Prop where
  nodup : ∀ x, (numbers q x).Nodup
  unique : ∀ n x y, n ∈ numbers q x → n ∈ numbers q y → x = y

theorem Once.empty : Once (empty : Queues ν β) :=
  ⟨fun _ => List.nodup_nil, by simp [numbers, ItemQueues.empty]⟩

section Steps
variable [DecidableEq ι]

theorem mem_numbers_of_erase [DecidableEq ν] (h : m ∈ numbers (erase q y n) x) :
    m ∈ numbers q x := by
  rw [numbers_erase] at h
  split_ifs at h
  · exact List.mem_of_mem_erase h
  · exact h

theorem mem_numbers_erase_of_ne [DecidableEq ν] (h : m ∈ numbers q x) (hne : m ≠ n) (y : ι) :
    m ∈ numbers (erase q y n) x := by
  rw [numbers_erase]
  split_ifs
  · exact (List.mem_erase_of_ne hne).mpr h
  · exact h

theorem mem_numbers_push : m ∈ numbers (push q y n b) x ↔ m ∈ numbers q x ∨ (x = y ∧ m = n) := by
  rw [numbers_push]
  split_ifs with h <;> simp [h]

theorem Once.erase [DecidableEq ν] (h : Once q) (y : ι) (n : ν) : Once (erase q y n) := by
  constructor
  · intro x
    rw [numbers_erase]
    split_ifs
    · exact (h.nodup x).erase n
    · exact h.nodup x
  · intro m x z hx hz
    exact h.unique m x z (mem_numbers_of_erase hx) (mem_numbers_of_erase hz)

theorem Once.not_mem_erase [DecidableEq ν] (h : Once q) (hn : n ∈ numbers q y) (x : ι) :
    n ∉ numbers (ItemQueues.erase q y n) x := by
  intro hx
  have hxy : x = y := h.unique n x y (mem_numbers_of_erase hx) hn
  subst hxy
  rw [numbers_erase, if_pos rfl] at hx
  exact (h.nodup x).not_mem_erase hx

theorem Once.push (h : Once q) (hn : ∀ x, n ∉ numbers q x) (y : ι) (b : β y) :
    Once (push q y n b) := by
  constructor
  · intro x
    rw [numbers_push]
    split_ifs
    · exact List.nodup_append.mpr ⟨h.nodup x, by simp, by
        rintro m hm _ hs rfl
        rw [List.mem_singleton] at hs
        exact hn x (hs ▸ hm)⟩
    · exact h.nodup x
  · intro m x z hx hz
    rcases mem_numbers_push.mp hx with hx' | ⟨rfl, rfl⟩
    · rcases mem_numbers_push.mp hz with hz' | ⟨-, rfl⟩
      · exact h.unique m x z hx' hz'
      · exact absurd hx' (hn x)
    · rcases mem_numbers_push.mp hz with hz' | ⟨rfl, -⟩
      · exact absurd hz' (hn z)
      · rfl

end Steps

section Keep

/-- The queues with the items of some numbers only. -/
def keep (p : ι → ν → Bool) (q : Queues ν β) : Queues ν β :=
  fun x => (q x).filter fun item => p x item.number

variable {p : ι → ν → Bool}

theorem keep_push [DecidableEq ι] (q : Queues ν β) (y : ι) (n : ν) (b : β y) :
    keep p (push q y n b) = if p y n = true then push (keep p q) y n b else keep p q := by
  funext x
  by_cases hx : x = y
  · subst hx
    split_ifs with h <;> simp [keep, push, h]
  · split_ifs <;> simp [keep, push, hx]

theorem filter_eraseP [DecidableEq ν] {α : Type*} (k : ν → Bool) (items : List (Item ν α)) :
    (items.eraseP fun item => item.number = n).filter (fun item => k item.number) =
      if k n = true then
        (items.filter fun item => k item.number).eraseP fun item => item.number = n
      else items.filter fun item => k item.number := by
  induction items with
  | nil => simp
  | cons item items ih =>
    by_cases hn : item.number = n
    · by_cases hk : k n = true <;> simp [hn, hk]
    · by_cases hk : k item.number = true
      · simp only [hn, hk, decide_false, Bool.false_eq_true, not_false_eq_true,
          List.eraseP_cons_of_neg, List.filter_cons_of_pos, ih]
        split_ifs <;> rfl
      · simp [hn, hk, ih]

theorem keep_erase [DecidableEq ι] [DecidableEq ν] (q : Queues ν β) (y : ι) (n : ν) :
    keep p (erase q y n) = if p y n = true then erase (keep p q) y n else keep p q := by
  funext x
  by_cases hx : x = y
  · subst hx
    simp only [keep, erase, Function.update_self, filter_eraseP]
    split_ifs <;> simp [keep]
  · split_ifs <;> simp [keep, erase, hx]

theorem find_keep [DecidableEq ν] (q : Queues ν β) (h : p x n = true) :
    find (keep p q) x n = find q x n := by
  have hsame : (fun item : Item ν (β x) =>
      decide (p x item.number = true ∧ decide (item.number = n) = true)) =
      fun item => decide (item.number = n) := by
    funext item
    by_cases hn : item.number = n <;> simp [hn, h]
  simp only [find, keep, List.find?_filter, hsame]

theorem head_keep (h : p x n = true) (hq : (numbers q x).head? = some n) :
    (numbers (keep p q) x).head? = some n := by
  unfold numbers keep at *
  cases hl : q x with
  | nil => simp [hl] at hq
  | cons item items =>
    obtain rfl : item.number = n := by simpa [hl] using hq
    simp [h]

theorem length_keep_le (q : Queues ν β) (x : ι) : (keep p q x).length ≤ (q x).length :=
  List.length_filter_le _ _

end Keep

end ItemQueues
