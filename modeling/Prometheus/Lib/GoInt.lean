import Mathlib

/-!
# Machine integers

An `int64` is an integer between `-2 ^ 63` and `2 ^ 63`, an `int32` one between `-2 ^ 31` and `2 ^
31`. The result of an operation is wrapped into this range. As wrapping respects sums, a chain of
operations may be computed exactly and wrapped at its end (`wrap_wrap_add`, `int32_int32_add`).
-/

namespace GoInt

/-- An integer as an `int64`. -/
def wrap (x : ℤ) : ℤ :=
  x.bmod (2 ^ 64)

/-- The integers that are `int64`s. -/
def InRange (x : ℤ) : Prop :=
  -2 ^ 63 ≤ x ∧ x < 2 ^ 63

/-- The least `int64`. -/
def minInt64 : ℤ :=
  -2 ^ 63

/-- The greatest `int64`. -/
def maxInt64 : ℤ :=
  2 ^ 63 - 1

instance (x : ℤ) : Decidable (InRange x) :=
  inferInstanceAs (Decidable (_ ∧ _))

lemma wrap_eq_self {x : ℤ} (h : InRange x) : wrap x = x := by
  obtain ⟨hle, hlt⟩ := h
  simp only [wrap, Int.bmod]
  omega

/-- One turn around. -/
lemma wrap_eq_sub {x : ℤ} (hle : 2 ^ 63 ≤ x) (hlt : x < 2 ^ 64) : wrap x = x - 2 ^ 64 := by
  simp only [wrap, Int.bmod]
  omega

@[simp] lemma wrap_wrap_add (x y : ℤ) : wrap (wrap x + y) = wrap (x + y) :=
  Int.bmod_add_bmod

/-- An integer as an `int32`. -/
def int32 (x : ℤ) : ℤ :=
  x.bmod (2 ^ 32)

/-- An integer as a `uint32`. -/
def uint32 (x : ℤ) : ℕ :=
  (x % 2 ^ 32).toNat

/-- The integers that are `int32`s. -/
def IsInt32 (x : ℤ) : Prop :=
  -2 ^ 31 ≤ x ∧ x < 2 ^ 31

instance (x : ℤ) : Decidable (IsInt32 x) :=
  inferInstanceAs (Decidable (_ ∧ _))

lemma isInt32_int32 (x : ℤ) : IsInt32 (int32 x) := by
  simp only [IsInt32, int32, Int.bmod]
  omega

lemma int32_eq_self {x : ℤ} : int32 x = x ↔ IsInt32 x := by
  simp only [IsInt32, int32, Int.bmod]
  omega

lemma int32_of_nonneg {x : ℤ} (h : 0 ≤ x) (hx : x < 2 ^ 31) : int32 x = x :=
  int32_eq_self.2 ⟨by omega, hx⟩

/-- Wrapping around makes an integer smaller, unless it was below the range. -/
lemma int32_le {x : ℤ} (h : -2 ^ 31 ≤ x) : int32 x ≤ x := by
  simp only [int32, Int.bmod]
  omega

@[simp] lemma int32_int32_add (x y : ℤ) : int32 (int32 x + y) = int32 (x + y) :=
  Int.bmod_add_bmod

@[simp] lemma int32_add_int32 (x y : ℤ) : int32 (x + int32 y) = int32 (x + y) :=
  Int.add_bmod_bmod

lemma uint32_le (x : ℕ) : uint32 x ≤ x := by
  simp only [uint32]
  omega

lemma uint32_eq_self {x : ℕ} (h : x < 2 ^ 32) : uint32 x = x := by
  simp only [uint32]
  omega

end GoInt
