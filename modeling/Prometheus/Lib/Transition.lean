import Mathlib

/-!
# Systems that take steps

A system is a partial function: `step s a` is the state after the action `a`, if this action can
happen in the state `s`. A run is a list of actions. `Along Q` says that every step of a run meets a
condition `Q` on the state in which it is taken and on the action, and `Sometime Q` that some step
does.

There are three rules. By `run_invariant`, what holds at first and is kept by every step holds in
the end. By `along_congr`, two conditions that are the same wherever an invariant holds are the same
along a run. By `good_iff_along`, if a step leads to a good state exactly when it comes from one and
meets a condition, then a run leads to a good state exactly when it starts in one and all its steps
meet the condition.
-/

namespace Transition

variable {σ α : Type} (step : σ → α → Option σ)

/-- The state after some actions, if they can happen one after the other. -/
def run : σ → List α → Option σ
  | s, [] => some s
  | s, a :: as => (step s a).bind fun s' => run s' as

/-- Every step of a run meets a condition. -/
def Along (Q : σ → α → Prop) : σ → List α → Prop
  | _, [] => True
  | s, a :: as => Q s a ∧ ∀ s', step s a = some s' → Along Q s' as

/-- Some step of a run meets a condition. -/
def Sometime (Q : σ → α → Prop) : σ → List α → Prop
  | _, [] => False
  | s, a :: as => Q s a ∨ ∃ s', step s a = some s' ∧ Sometime Q s' as

variable {step} {as : List α} {Q : σ → α → Prop} {s s' : σ} {P : σ → Prop}

lemma run_cons_eq_some {a : α} :
    run step s (a :: as) = some s' ↔ ∃ s₁, step s a = some s₁ ∧ run step s₁ as = some s' :=
  Option.bind_eq_some_iff

lemma run_append {as bs : List α} :
    run step s (as ++ bs) = some s' ↔ ∃ s₁, run step s as = some s₁ ∧ run step s₁ bs = some s' := by
  induction as generalizing s with
  | nil => simp [run]
  | cons a as ih =>
    simp only [List.cons_append, run_cons_eq_some, ih]
    constructor
    · rintro ⟨s₁, h₁, s₂, h₂, h₃⟩
      exact ⟨s₂, ⟨s₁, h₁, h₂⟩, h₃⟩
    · rintro ⟨s₂, ⟨s₁, h₁, h₂⟩, h₃⟩
      exact ⟨s₁, h₁, s₂, h₂, h₃⟩

/-- What some step meets is met by some step of a longer run. -/
lemma Sometime.append {s : σ} (h : Sometime step Q s as)
    (bs : List α) : Sometime step Q s (as ++ bs) := by
  induction as generalizing s with
  | nil => exact h.elim
  | cons a as ih => exact h.imp_right fun ⟨s', hstep, hlater⟩ => ⟨s', hstep, ih hlater⟩

/-- What some step of the rest of a run meets is met by some step of the run. -/
lemma Sometime.of_run {bs : List α} (hrun : run step s as = some s') (h : Sometime step Q s' bs) :
    Sometime step Q s (as ++ bs) := by
  induction as generalizing s with
  | nil =>
    cases hrun
    exact h
  | cons a as ih =>
    obtain ⟨s₁, hstep, hrest⟩ := run_cons_eq_some.1 hrun
    exact .inr ⟨s₁, hstep, ih hrest⟩

lemma along_cons {a : α} (hstep : step s a = some s') :
    Along step Q s (a :: as) ↔ Q s a ∧ Along step Q s' as := by
  simp [Along, hstep]

lemma along_of_forall (h : ∀ s a, Q s a) {s : σ} : Along step Q s as := by
  induction as generalizing s with
  | nil => trivial
  | cons a as ih => exact ⟨h s a, fun _ _ => ih⟩

lemma Along.mono {Q Q' : σ → α → Prop} (h : ∀ s a, Q s a → Q' s a) {s : σ}
    (hQ : Along step Q s as) : Along step Q' s as := by
  induction as generalizing s with
  | nil => trivial
  | cons a as ih => exact ⟨h s a hQ.1, fun s' hs' => ih (hQ.2 s' hs')⟩

/-- A condition that can be decided can be decided along a run. -/
instance instDecidableAlong {Q : σ → α → Prop} [∀ s a, Decidable (Q s a)] :
    ∀ (s : σ) (as : List α), Decidable (Along step Q s as)
  | _, [] => isTrue trivial
  | s, a :: as =>
    match hstep : step s a with
    | none => decidable_of_iff (Q s a) (by simp [Along, hstep])
    | some s' =>
      have := instDecidableAlong (Q := Q) s' as
      decidable_of_iff (Q s a ∧ Along step Q s' as) (along_cons hstep).symm

/-- What is kept by every step that meets a condition is kept by every run whose steps meet it. -/
lemma run_invariant_of_along {C : σ → α → Prop}
    (hstep : ∀ s a s', P s → C s a → step s a = some s' → P s')
    (hrun : run step s as = some s') (hs : P s) (hC : Along step C s as) : P s' := by
  induction as generalizing s with
  | nil =>
    cases hrun
    exact hs
  | cons a as ih =>
    obtain ⟨s₁, h₁, hrest⟩ := run_cons_eq_some.1 hrun
    exact ih hrest (hstep s a s₁ hs hC.1 h₁) (hC.2 s₁ h₁)

/-- What is kept by every step is kept by every run. -/
theorem run_invariant (hstep : ∀ s a s', P s → step s a = some s' → P s')
    (hrun : run step s as = some s') (hs : P s) : P s' :=
  run_invariant_of_along (fun s a s' h _ => hstep s a s' h) hrun hs
    (along_of_forall fun _ _ => trivial)

/-- Along such a run, two conditions are the same if they are the same where the invariant holds. -/
lemma along_congr {C Q Q' : σ → α → Prop}
    (hstep : ∀ s a s', P s → C s a → step s a = some s' → P s')
    (hQ : ∀ s a, P s → (Q s a ↔ Q' s a)) {s : σ} (hs : P s)
    (hC : Along step C s as) : Along step Q s as ↔ Along step Q' s as := by
  induction as generalizing s with
  | nil => exact Iff.rfl
  | cons a as ih =>
    rw [Along, Along, hQ s a hs]
    refine and_congr_right fun _ => forall_congr' fun s' => forall_congr' fun h => ?_
    exact ih (hstep s a s' hs hC.1 h) (hC.2 s' h)

/-- Whether the state after a run is good is decided step by step. -/
theorem good_iff_along {Inv Good : σ → Prop} (hinv : ∀ s a s', Inv s → step s a = some s' → Inv s')
    (hgood : ∀ s a s', Inv s → step s a = some s' → (Good s' ↔ Good s ∧ Q s a)) (hs : Inv s)
    (hrun : run step s as = some s') :
    Good s' ↔ Good s ∧ Along step Q s as := by
  induction as generalizing s with
  | nil =>
    cases hrun
    simp [Along]
  | cons a as ih =>
    obtain ⟨s₁, h₁, hrest⟩ := run_cons_eq_some.1 hrun
    rw [ih (hinv s a s₁ hs h₁) hrest, hgood s a s₁ hs h₁, along_cons h₁, and_assoc]

end Transition
