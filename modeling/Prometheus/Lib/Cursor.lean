import Mathlib

/-!
# Cursors over a set

What `Next` and `Seek` are expected to do to a cursor over the elements of a set in increasing
order.
-/

namespace Cursor

inductive Call (α : Type)
  | next
  | seek (t : α)

variable {α : Type} [LinearOrder α]

/-- Where a call moves a cursor over `U` that stands at `pos`, if anywhere. -/
def Target (U : Set α) (pos : Option α) : Call α → Option α → Prop
  | .next, some u => IsLeast {u | u ∈ U ∧ ∀ p ∈ pos, p < u} u
  | .next, none => ∀ u ∈ U, ∃ p ∈ pos, u ≤ p
  | .seek t, res =>
    (∃ p ∈ pos, t ≤ p ∧ res = some p) ∨ (∀ p ∈ pos, p < t) ∧ match res with
      | some u => IsLeast {u | u ∈ U ∧ t ≤ u} u
      | none => ∀ u ∈ U, u < t

/-- The positions a sequence of calls goes to, up to the first call that finds nothing. -/
def Follows (U : Set α) : Option α → List (Call α) → List (Option α) → Prop
  | _, [], outs => outs = []
  | _, _ :: _, [] => False
  | pos, op :: _, none :: outs => Target U pos op none ∧ outs = []
  | pos, op :: ops, some u :: outs => Target U pos op (some u) ∧ Follows U (some u) ops outs

/-- Enough calls of `Next` go through a finite set and then end. -/
lemma Follows.next_only {U : Finset α} {pos : Option α} {m : ℕ} {outs : List (Option α)}
    (hm : (U.filter fun u => ∀ p ∈ pos, p < u).card < m)
    (h : Follows (U : Set α) pos (List.replicate m .next) outs) :
    ∃ shown : List α, outs = shown.map some ++ [none] ∧ shown.Pairwise (· < ·) ∧
      ∀ u, u ∈ shown ↔ u ∈ U ∧ ∀ p ∈ pos, p < u := by
  induction m generalizing pos outs with
  | zero => omega
  | succ m ih =>
    rw [List.replicate_succ] at h
    match outs, h with
    | none :: _, ⟨htarget, rfl⟩ =>
      refine ⟨[], rfl, List.Pairwise.nil, fun u => ⟨by simp, fun hu => ?_⟩⟩
      obtain ⟨p, hp, hle⟩ := htarget u hu.1
      exact absurd (hu.2 p hp) hle.not_gt
    | some u₀ :: _, ⟨hleast, hrest⟩ =>
      have hstep : ∀ u, (u ∈ U ∧ ∀ p ∈ pos, p < u) ↔ u = u₀ ∨ u ∈ U ∧ ∀ p ∈ some u₀, p < u := by
        intro u
        constructor
        · intro hu
          rcases (hleast.2 hu).eq_or_lt with heq | hlt
          · exact .inl heq.symm
          · exact .inr ⟨hu.1, by simpa using hlt⟩
        · rintro (rfl | ⟨hu, hlt⟩)
          · exact hleast.1
          · exact ⟨hu, fun p hp => (hleast.1.2 p hp).trans (hlt _ rfl)⟩
      have hcard : (U.filter fun u => ∀ p ∈ some u₀, p < u).card <
          (U.filter fun u => ∀ p ∈ pos, p < u).card := by
        refine Finset.card_lt_card ((Finset.ssubset_iff_of_subset ?_).2 ⟨u₀, ?_, ?_⟩)
        · exact fun u hu => Finset.mem_filter.2 ((hstep u).2 (.inr (Finset.mem_filter.1 hu)))
        · exact Finset.mem_filter.2 ((hstep u₀).2 (.inl rfl))
        · simp
      obtain ⟨shown, rfl, hsorted, hmem⟩ := ih (by omega) hrest
      refine ⟨u₀ :: shown, rfl, List.pairwise_cons.2 ⟨fun u hu => ?_, hsorted⟩, fun u => ?_⟩
      · exact ((hmem u).1 hu).2 _ rfl
      · rw [List.mem_cons, hmem, hstep]

end Cursor
