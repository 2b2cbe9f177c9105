import Mathlib

/-!
# Results that are kept

A function whose results are kept in a map, under a key that is computed from the argument.
-/

namespace Memo

variable {α κ β : Type} [DecidableEq κ] (key : α → κ) (f : α → β)

/-- What is returned for an argument, and the results that are kept after it. -/
def call (kept : κ → Option β) (a : α) : β × (κ → Option β) :=
  match kept (key a) with
  | some b => (b, kept)
  | none => (f a, Function.update kept (key a) (some (f a)))

/-- What is returned for one argument after the other. -/
def calls : (κ → Option β) → List α → List β
  | _, [] => []
  | kept, a :: as => (call key f kept a).1 :: calls (call key f kept a).2 as

variable {key f} {kept : κ → Option β} {as : List α}

lemma calls_eq_map_iff : calls key f kept as = as.map f ↔
    (∀ a ∈ as, ∀ b, kept (key a) = some b → b = f a) ∧
      as.Pairwise fun a a' => key a = key a' → f a = f a' := by
  induction as generalizing kept with
  | nil => simp [calls]
  | cons a as ih =>
    rw [calls, List.map_cons, List.cons.injEq, ih, List.pairwise_cons]
    cases hkept : kept (key a) with
    | some b =>
      have hcall : call key f kept a = (b, kept) := by rw [call, hkept]
      rw [hcall]
      grind
    | none =>
      have hcall : call key f kept a = (f a, Function.update kept (key a) (some (f a))) := by
        rw [call, hkept]
      rw [hcall]
      grind [Function.update_apply]

end Memo
