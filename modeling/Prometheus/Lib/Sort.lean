import Mathlib

/-!
# Sorting functions

An unstable sort is any function that returns its argument in order: elements that compare equal may
come in any order.
-/

namespace Prometheus

/-- All that is known of a sort that need not be stable. -/
structure SortsBy {α : Type*} (r : α → α → Prop) (sort : List α → List α) : Prop where
  perm : ∀ as, (sort as).Perm as
  pairwise : ∀ as, (sort as).Pairwise r

/-- Insertion sort is one of the sorts. -/
lemma sortsBy_insertionSort {α : Type*} (r : α → α → Prop) [DecidableRel r] [Std.Total r]
    [IsTrans α r] : SortsBy r fun as => as.insertionSort r :=
  ⟨List.perm_insertionSort r, List.pairwise_insertionSort r⟩

end Prometheus
