import Uip.ItemQueues

/-!
# The load of queues

Items weigh something, which may depend on the place. The load of all queues is the weight of all
items together; it is finite where only finitely many queues hold items.
-/
namespace ItemQueues

variable {ι ν : Type*} {β : ι → Type*} {q : Queues ν β} {weight : (x : ι) → β x → ℕ}
  {places : List ι} {x y : ι} {n : ν} {b : β y} {total : ℕ}

def queueLoad {α : Type*} (weight : α → ℕ) : List (Item ν α) → ℕ
  | [] => 0
  | item :: items => weight item.content + queueLoad weight items

def loadAt (weight : (x : ι) → β x → ℕ) (q : Queues ν β) : List ι → ℕ
  | [] => 0
  | x :: places => queueLoad (weight x) (q x) + loadAt weight q places

theorem queueLoad_append {α : Type*} (weight : α → ℕ) (items : List (Item ν α)) (n : ν) (a : α) :
    queueLoad weight (items ++ [⟨n, a⟩]) = queueLoad weight items + weight a := by
  induction items with
  | nil => simp [queueLoad]
  | cons item items ih =>
    simp only [List.cons_append, queueLoad, ih]
    omega

theorem queueLoad_eraseP {α : Type*} [DecidableEq ν] (weight : α → ℕ)
    {items : List (Item ν α)} {n : ν} {item : Item ν α}
    (found : items.find? (fun item => item.number = n) = some item) :
    queueLoad weight (items.eraseP fun item => item.number = n) + weight item.content =
      queueLoad weight items := by
  induction items with
  | nil => simp at found
  | cons first items ih =>
    by_cases hn : first.number = n
    · obtain rfl : first = item := by simpa [hn] using found
      simp only [hn, decide_true, List.eraseP_cons_of_pos, queueLoad]
      omega
    · have hlater := ih (by simpa [hn] using found)
      simp only [hn, decide_false, Bool.false_eq_true, not_false_eq_true,
        List.eraseP_cons_of_neg, queueLoad]
      omega

theorem loadAt_congr {r : Queues ν β} (same : ∀ x ∈ places, r x = q x) :
    loadAt weight r places = loadAt weight q places := by
  induction places with
  | nil => rfl
  | cons x places ih =>
    rw [loadAt, loadAt, same x List.mem_cons_self]
    rw [ih fun y hy => same y (List.mem_cons_of_mem x hy)]

theorem loadAt_update [DecidableEq ι] (weight : (x : ι) → β x → ℕ) (q : Queues ν β)
    (items : List (Item ν (β y))) (nodup : places.Nodup) (hy : y ∈ places) :
    loadAt weight (Function.update q y items) places + queueLoad (weight y) (q y) =
      loadAt weight q places + queueLoad (weight y) items := by
  induction places with
  | nil => cases hy
  | cons x places ih =>
    obtain ⟨hx, hplaces⟩ := List.nodup_cons.mp nodup
    rw [loadAt, loadAt]
    rcases List.mem_cons.mp hy with rfl | hlater
    · have hrest : loadAt weight (Function.update q y items) places = loadAt weight q places := by
        refine loadAt_congr fun z hz => ?_
        rw [Function.update_of_ne]
        rintro rfl
        exact hx hz
      rw [hrest, Function.update_self]
      omega
    · have hne : x ≠ y := by
        rintro rfl
        exact hx hlater
      have hsame := ih hplaces hlater
      rw [Function.update_of_ne hne]
      omega

/-- All items together weigh `total`. -/
def Load (weight : (x : ι) → β x → ℕ) (q : Queues ν β) (total : ℕ) : Prop :=
  ∃ places : List ι, places.Nodup ∧ (∀ x, q x ≠ [] → x ∈ places) ∧ loadAt weight q places = total

theorem Load.empty : Load weight (empty : Queues ν β) 0 :=
  ⟨[], List.nodup_nil, fun _ hx => absurd rfl hx, rfl⟩

variable [DecidableEq ι]

/-- The places of a load can be chosen with any one place among them. -/
theorem Load.at (load : Load weight q total) (y : ι) :
    ∃ places : List ι, places.Nodup ∧ (∀ x, q x ≠ [] → x ∈ places) ∧ y ∈ places ∧
      loadAt weight q places = total := by
  obtain ⟨places, nodup, covers, htotal⟩ := load
  by_cases hy : y ∈ places
  · exact ⟨places, nodup, covers, hy, htotal⟩
  · have hnil : q y = [] := by
      by_contra hne
      exact hy (covers y hne)
    refine ⟨y :: places, List.nodup_cons.mpr ⟨hy, nodup⟩, fun x hx => ?_, List.mem_cons_self, ?_⟩
    · exact List.mem_cons_of_mem y (covers x hx)
    · rw [loadAt, hnil, queueLoad, htotal, Nat.zero_add]

theorem Load.push (load : Load weight q total) (y : ι) (n : ν) (b : β y) :
    Load weight (push q y n b) (total + weight y b) := by
  obtain ⟨places, nodup, covers, hy, htotal⟩ := load.at y
  refine ⟨places, nodup, fun x hx => ?_, ?_⟩
  · rcases push_ne_nil hx with hold | rfl
    · exact covers x hold
    · exact hy
  · have hupdate := loadAt_update weight q (q y ++ [⟨n, b⟩]) nodup hy
    rw [queueLoad_append] at hupdate
    unfold ItemQueues.push
    omega

theorem Load.erase [DecidableEq ν] (load : Load weight q total) {a : β y}
    (found : find q y n = some a) :
    ∃ rest, rest + weight y a = total ∧ Load weight (erase q y n) rest := by
  obtain ⟨places, nodup, covers, hy, htotal⟩ := load.at y
  obtain ⟨item, hitem, rfl⟩ := Option.map_eq_some_iff.mp found
  refine ⟨_, ?_, places, nodup, fun x hx => covers x (erase_ne_nil hx), rfl⟩
  have hupdate := loadAt_update weight q ((q y).eraseP fun item => item.number = n) nodup hy
  have herase := queueLoad_eraseP (weight y) hitem
  unfold ItemQueues.erase
  omega

theorem Load.move [DecidableEq ν] (load : Load weight q total) {a : β x}
    (found : find q x n = some a) (y : ι) (m : ν) (b : β y) :
    ∃ rest, rest + weight x a = total + weight y b ∧
      Load weight (ItemQueues.push (ItemQueues.erase q x n) y m b) rest := by
  obtain ⟨rest, htotal, hrest⟩ := load.erase found
  exact ⟨rest + weight y b, by omega, hrest.push y m b⟩

end ItemQueues
