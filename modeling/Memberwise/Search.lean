/-!
# Depth-first search

What some elements lead to is listed by working off a stack. An element may
stand on the stack several times; it counts as seen from when it is taken off.
-/

namespace Memberwise

/-- Where elements lead, with those that lead anywhere. -/
structure Steps (α : Type) where
  next : α → List α
  sources : List α
  mem_sources : ∀ a, next a ≠ [] → a ∈ sources

namespace Steps

variable {α : Type} [DecidableEq α]

/-- The number of steps from elements not in `seen`. -/
def pending (steps : Steps α) (seen : List α) : Nat :=
  ((steps.sources.filter (· ∉ seen)).flatMap steps.next).length

theorem length_flatMap_filter_cons (f : α → List α) {a : α} {seen : List α} (h : a ∉ seen)
    (l : List α) :
    ((l.filter (· ∉ a :: seen)).flatMap f).length + (if a ∈ l then (f a).length else 0) ≤
      ((l.filter (· ∉ seen)).flatMap f).length := by
  induction l with
  | nil => simp
  | cons b l ih =>
    by_cases hb : b ∈ seen
    · have hne : a ≠ b := fun heq => h (heq ▸ hb)
      simpa [hb, hne] using ih
    · by_cases heq : b = a
      · subst heq
        simp only [List.mem_cons, true_or, not_true_eq_false, decide_false, if_true,
          List.filter_cons, hb, not_false_eq_true, decide_true, List.flatMap_cons,
          List.length_append, Bool.false_eq_true, if_false] at ih ⊢
        omega
      · have hne : a ≠ b := fun h => heq h.symm
        simp only [List.mem_cons, heq, hne, hb, false_or, not_false_eq_true, decide_true, if_true,
          List.filter_cons, List.flatMap_cons, List.length_append] at ih ⊢
        omega

/-- An element that is seen now uses up its steps. -/
theorem pending_cons_le (steps : Steps α) {a : α} {seen : List α} (h : a ∉ seen) :
    steps.pending (a :: seen) + (steps.next a).length ≤ steps.pending seen := by
  have hfewer := length_flatMap_filter_cons steps.next h steps.sources
  unfold pending
  by_cases hnext : steps.next a = []
  · rw [hnext, List.length_nil]
    omega
  · rw [if_pos (steps.mem_sources a hnext)] at hfewer
    exact hfewer

/--
Visits the elements of a stack and all they lead to, leaving out those seen
before. Every visit uses up the steps from an element, so the steps still to be
taken and the elements on the stack together become fewer.
-/
def visit (steps : Steps α) (seen stack : List α) : List α :=
  match stack with
  | [] => []
  | a :: stack =>
    if h : a ∈ seen then steps.visit seen stack
    else
      have : steps.pending (a :: seen) + (steps.next a).length ≤ steps.pending seen :=
        steps.pending_cons_le h
      a :: steps.visit (a :: seen) (steps.next a ++ stack)
termination_by steps.pending seen + stack.length
decreasing_by all_goals simp only [List.length_append, List.length_cons]; omega

end Steps

end Memberwise
