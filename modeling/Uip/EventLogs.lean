import Uip.TransitionSystem
import Mathlib.Data.List.Basic

/-!
# What goes in and out along a path

A machine holds a list of items. Each transition takes some out at the front and puts some in at
the end; the logs of a path collect them. What came out and what is still held is what was held
at first and what went in, in this order.
-/
namespace TransitionSystem

variable {σ ε α : Type*} {M : Machine σ ε} {s t : σ} {trace : List (Transition σ ε)}

/-- Where each transition keeps the order of the items, the whole path does. -/
theorem Path.flow (h : Path M s trace t) (content : σ → List α)
    (outs ins : Transition σ ε → List α)
    (step : ∀ x ∈ trace, outs x ++ content x.target = content x.source ++ ins x) :
    trace.flatMap outs ++ content t = content s ++ trace.flatMap ins := by
  induction h with
  | nil => simp
  | @snoc t u trace e prior next ih =>
    have hprior := ih fun x hx => step x (List.mem_append_left _ hx)
    have hlast := step ⟨t, e, u⟩ (by simp)
    simp only [List.flatMap_append, List.flatMap_singleton]
    calc trace.flatMap outs ++ outs ⟨t, e, u⟩ ++ content u
        = trace.flatMap outs ++ (content t ++ ins ⟨t, e, u⟩) := by rw [List.append_assoc, hlast]
      _ = content s ++ (trace.flatMap ins ++ ins ⟨t, e, u⟩) := by
        rw [← List.append_assoc, hprior, List.append_assoc]

/-- As `Path.flow`, where items may be lost on the way. -/
theorem Path.flow_sublist (h : Path M s trace t) (content : σ → List α)
    (outs ins : Transition σ ε → List α)
    (step : ∀ x ∈ trace, (outs x ++ content x.target).Sublist (content x.source ++ ins x)) :
    (trace.flatMap outs ++ content t).Sublist (content s ++ trace.flatMap ins) := by
  induction h with
  | nil => simp
  | @snoc t u trace e prior next ih =>
    have hprior := ih fun x hx => step x (List.mem_append_left _ hx)
    have hlast := step ⟨t, e, u⟩ (by simp)
    simp only [List.flatMap_append, List.flatMap_singleton]
    have hout : (trace.flatMap outs ++ outs ⟨t, e, u⟩ ++ content u).Sublist
        (trace.flatMap outs ++ content t ++ ins ⟨t, e, u⟩) := by
      rw [List.append_assoc, List.append_assoc]
      exact hlast.append_left _
    have hin := hprior.append_right (ins ⟨t, e, u⟩)
    rw [List.append_assoc (content s)] at hin
    exact hout.trans hin

theorem Path.flow_unless (h : Path M s trace t) (content : σ → List α)
    (outs ins : Transition σ ε → List α) (lost : Transition σ ε → Prop)
    (step : ∀ x ∈ trace, outs x ++ content x.target = content x.source ++ ins x ∨
      lost x ∧ (outs x ++ content x.target).Sublist (content x.source ++ ins x)) :
    (trace.flatMap outs ++ content t).Sublist (content s ++ trace.flatMap ins) ∧
      ((∀ x ∈ trace, ¬ lost x) →
        trace.flatMap outs ++ content t = content s ++ trace.flatMap ins) := by
  constructor
  · refine h.flow_sublist content outs ins fun x hx => ?_
    rcases step x hx with heq | ⟨-, hsub⟩
    · exact heq ▸ List.Sublist.refl _
    · exact hsub
  · intro kept
    exact h.flow content outs ins fun x hx =>
      (step x hx).resolve_right fun hlost => kept x hx hlost.1

/-- A list that is closed for good at some point: what came out until then is the first part of
what went in. -/
theorem Path.flow_closing (h : Path M s trace t) (content : σ → List α)
    (outs ins : Transition σ ε → List α) (closed : σ → Prop)
    (lasts : ∀ x ∈ trace, closed x.source → closed x.target ∧ outs x = [] ∧ ins x = [])
    (step : ∀ x ∈ trace, ¬ closed x.source →
      outs x ++ content x.target = content x.source ++ ins x ∨ closed x.target ∧ outs x = []) :
    trace.flatMap outs <+: content s ++ trace.flatMap ins ∧
      (¬ closed t → trace.flatMap outs ++ content t = content s ++ trace.flatMap ins) := by
  induction h with
  | nil => simp
  | @snoc t u trace e prior next ih =>
    obtain ⟨hleads, hprior⟩ := ih (fun x hx => lasts x (List.mem_append_left _ hx))
      fun x hx => step x (List.mem_append_left _ hx)
    simp only [List.flatMap_append, List.flatMap_singleton]
    by_cases hclosed : closed t
    · obtain ⟨hu, hout, hin⟩ := lasts ⟨t, e, u⟩ (by simp) hclosed
      rw [hout, hin, List.append_nil, List.append_nil]
      exact ⟨hleads, fun hopen => absurd hu hopen⟩
    · have hkept := hprior hclosed
      rcases step ⟨t, e, u⟩ (by simp) hclosed with heq | ⟨hu, hout⟩
      · have hlast : trace.flatMap outs ++ outs ⟨t, e, u⟩ ++ content u =
            content s ++ (trace.flatMap ins ++ ins ⟨t, e, u⟩) := by
          calc trace.flatMap outs ++ outs ⟨t, e, u⟩ ++ content u
              = trace.flatMap outs ++ (content t ++ ins ⟨t, e, u⟩) := by
                rw [List.append_assoc, heq]
            _ = content s ++ (trace.flatMap ins ++ ins ⟨t, e, u⟩) := by
                rw [← List.append_assoc, hkept, List.append_assoc]
        exact ⟨hlast ▸ List.prefix_append _ _, fun _ => hlast⟩
      · rw [hout, List.append_nil, ← List.append_assoc]
        exact ⟨hleads.trans (List.prefix_append _ _), fun hopen => absurd hu hopen⟩

theorem keyed_log {β κ : Type*} [DecidableEq κ] (entry : β → Option (κ × α)) (k : κ)
    (entries : List β) :
    ((entries.filterMap entry).filter fun x => x.1 = k).map Prod.snd =
      entries.flatMap fun y => ((entry y).toList.filter fun x => x.1 = k).map Prod.snd := by
  rw [List.filterMap_eq_flatMap_toList, List.filter_flatMap, List.map_flatMap]

/-- Entries that name growing places of a list are a part of it. -/
theorem sublist_of_positions {l : List α} {entries : List (ℕ × α)}
    (hgrow : entries.Pairwise fun x y => x.1 < y.1)
    (hplace : ∀ x ∈ entries, l[x.1]? = some x.2) : (entries.map Prod.snd).Sublist l := by
  have hfrom : ∀ k, (∀ x ∈ entries, k ≤ x.1) → (entries.map Prod.snd).Sublist (l.drop k) := by
    induction entries with
    | nil => exact fun _ _ => List.nil_sublist _
    | cons x rest ih =>
      intro k hk
      obtain ⟨hfirst, hrest⟩ := List.pairwise_cons.mp hgrow
      obtain ⟨hlt, hx⟩ := List.getElem?_eq_some_iff.mp (hplace x (List.mem_cons_self ..))
      have htail := ih hrest (fun y hy => hplace y (List.mem_cons_of_mem _ hy)) (x.1 + 1)
        fun y hy => hfirst y hy
      have hat : l.drop x.1 = x.2 :: l.drop (x.1 + 1) := by
        rw [List.drop_eq_getElem_cons hlt, hx]
      have hsub : (x.2 :: rest.map Prod.snd).Sublist (l.drop x.1) := hat ▸ htail.cons_cons x.2
      exact hsub.trans (List.drop_sublist_drop_left l (hk x (List.mem_cons_self ..)))
  exact hfrom 0 fun _ _ => Nat.zero_le _

theorem Path.before (h : Path M s trace t) {prior rest : List (Transition σ ε)}
    {x : Transition σ ε} (htrace : trace = prior ++ x :: rest) : Path M s prior x.source := by
  induction h generalizing rest with
  | nil => simp at htrace
  | @snoc t u trace e path next ih =>
    rcases List.eq_nil_or_concat rest with rfl | ⟨rest, y, rfl⟩
    · obtain ⟨rfl, hlast⟩ := List.append_inj' htrace rfl
      obtain rfl := List.singleton_inj.mp hlast
      exact path
    · have hsame : trace ++ [⟨t, e, u⟩] = (prior ++ x :: rest) ++ [y] := by simpa using htrace
      exact ih (List.append_inj_left' hsame rfl)

section Part
variable {τ δ : Type*} {N : Machine τ δ} (f : σ → τ) (on : ε → Option δ)

def Transition.onPart (x : Transition σ ε) : Option (Transition τ δ) :=
  (on x.label).map fun d => ⟨f x.source, d, f x.target⟩

theorem Path.onPart (h : Path M s trace t)
    (shown : ∀ x ∈ trace, ∀ d, on x.label = some d → N.step (f x.source) d = some (f x.target))
    (hidden : ∀ x ∈ trace, on x.label = none → f x.target = f x.source) :
    Path N (f s) (trace.filterMap (Transition.onPart f on)) (f t) := by
  induction h with
  | nil => exact .nil _
  | @snoc t u trace e prior next ih =>
    have hprior := ih (fun x hx => shown x (List.mem_append_left _ hx))
      fun x hx => hidden x (List.mem_append_left _ hx)
    rw [List.filterMap_append]
    cases he : on e with
    | none =>
      have hsame : f u = f t := hidden ⟨t, e, u⟩ (by simp) he
      simpa [Transition.onPart, he, hsame] using hprior
    | some d =>
      have hstep : N.step (f t) d = some (f u) := shown ⟨t, e, u⟩ (by simp) d he
      simpa [Transition.onPart, he] using hprior.snoc hstep

end Part

end TransitionSystem
