import Uip.TransitionSystem
import Mathlib.Algebra.BigOperators.Group.Finset.Basic
import Mathlib.Order.WellFounded

/-! Machines whose steps cannot go on for ever, two measures that show it, and measures that are
sums over numbered parts of a state. -/
namespace TransitionSystem

variable {σ ε : Type*} {M : Machine σ ε} {s : σ}

/-- No sequence of steps goes on for ever from the state. -/
def Terminates (M : Machine σ ε) (s : σ) : Prop :=
  ∀ f : ℕ → σ, f 0 = s → ∃ i, ∀ e, M.step (f i) e ≠ some (f (i + 1))

theorem terminates_iff_acc :
    Terminates M s ↔ Acc (fun u t => ∃ e, M.step t e = some u) s := by
  rw [acc_iff_isEmpty_descending_chain, isEmpty_subtype]
  constructor
  · rintro h f ⟨hs, hf⟩
    obtain ⟨i, hi⟩ := h f hs
    obtain ⟨e, he⟩ := hf i
    exact hi e he
  · intro h f hs
    by_contra hnot
    refine h f ⟨hs, fun i => ?_⟩
    by_contra hi
    exact hnot ⟨i, fun e he => hi ⟨e, he⟩⟩

/-- Such a state leads to one that has no step. -/
theorem Terminates.exists_stuck (h : Terminates M s) :
    ∃ t trace, Path M s trace t ∧ ∀ e, M.step t e = none := by
  induction terminates_iff_acc.mp h with
  | intro s _ ih =>
    by_cases hstuck : ∀ e, M.step s e = none
    · exact ⟨s, [], .nil s, hstuck⟩
    · obtain ⟨e, he⟩ := Classical.not_forall.mp hstuck
      obtain ⟨t, ht⟩ := Option.ne_none_iff_exists'.mp he
      have hacc : Terminates M t :=
        terminates_iff_acc.mpr ((terminates_iff_acc.mp h).inv ⟨e, ht⟩)
      obtain ⟨u, trace, path, hu⟩ := ih t ⟨e, ht⟩ hacc
      exact ⟨u, _, .cons ht path, hu⟩

/-- Where every step lowers the first measure, or the second and not raises the first. -/
theorem terminates_of_lowers {P : σ → Prop} (first second : σ → ℕ)
    (hstep : ∀ s e t, P s → M.step s e = some t → P t ∧
      (first t < first s ∨ first t ≤ first s ∧ second t < second s)) (hs : P s) :
    Terminates M s := by
  refine terminates_iff_acc.mpr ?_
  have hacc : ∀ x : ℕ × ℕ, ∀ s, P s → (first s, second s) = x →
      Acc (fun u t => ∃ e, M.step t e = some u) s := by
    intro x
    induction x using (Prod.lex Nat.lt_wfRel Nat.lt_wfRel).wf.induction with
    | _ x ih =>
      rintro s hs rfl
      refine ⟨s, fun t ⟨e, ht⟩ => ?_⟩
      obtain ⟨hkeeps, hlower⟩ := hstep s e t hs ht
      refine ih _ (Prod.lex_def.mpr ?_) t hkeeps rfl
      rcases hlower with hfirst | ⟨hfirst, hsecond⟩
      · exact .inl hfirst
      · exact (Nat.lt_or_eq_of_le hfirst).imp_right fun heq => ⟨heq, hsecond⟩
  exact hacc _ s hs rfl

section Sums
open Finset

variable {f g : ℕ → ℕ} {n k : ℕ}

theorem sum_range_change (hk : k < n) (h : ∀ j, j ≠ k → g j = f j) :
    ∑ j ∈ range n, g j + f k = ∑ j ∈ range n, f j + g k := by
  have hmem : k ∈ range n := mem_range.mpr hk
  have hf := add_sum_erase (range n) f hmem
  have hg := add_sum_erase (range n) g hmem
  have hothers : ∑ j ∈ (range n).erase k, g j = ∑ j ∈ (range n).erase k, f j :=
    sum_congr rfl fun j hj => h j (ne_of_mem_erase hj)
  omega

end Sums

end TransitionSystem
