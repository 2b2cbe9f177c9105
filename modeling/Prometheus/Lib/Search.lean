import Mathlib

/-!
# Binary search

Go's `sort.Search`: the smallest index below `n` at which a monotone predicate holds, or `n`.
-/

namespace BinarySearch

/-- The loop over the interval from `i` to `j`, which gets shorter in each turn. -/
def loop (f : ℕ → Bool) : ℕ → ℕ → ℕ → ℕ
  | 0, i, _ => i
  | fuel + 1, i, j =>
    if i < j then
      let h := (i + j) / 2
      if !f h then loop f fuel (h + 1) j else loop f fuel i h
    else i

def search (n : ℕ) (f : ℕ → Bool) : ℕ :=
  loop f n 0 n

variable {f : ℕ → Bool} {n : ℕ}

variable (hmono : ∀ i j, i ≤ j → j < n → f i = true → f j = true)
include hmono

/-- The loop keeps: the predicate fails below `i` and holds from `j` on. -/
lemma loop_spec {fuel i j : ℕ}
    (hfuel : j ≤ fuel + i) (hij : i ≤ j) (hj : j ≤ n) (hlow : ∀ k < i, f k = false)
    (hhigh : ∀ k, j ≤ k → k < n → f k = true) :
    loop f fuel i j ≤ n ∧ (∀ k < loop f fuel i j, f k = false) ∧
      ∀ k, loop f fuel i j ≤ k → k < n → f k = true := by
  induction fuel generalizing i j with
  | zero => exact ⟨hij.trans hj, hlow, fun k hk => hhigh k (by simp only [loop] at hk; omega)⟩
  | succ fuel ih =>
    rw [loop]
    split
    case isFalse hge => exact ⟨hij.trans hj, hlow, fun k hk => hhigh k (by omega)⟩
    case isTrue hlt =>
      dsimp only
      cases hf : f ((i + j) / 2) with
      | false =>
        rw [Bool.not_false, if_pos rfl]
        refine ih (by omega) (by omega) hj (fun k hk => ?_) hhigh
        by_contra hne
        have := hmono k ((i + j) / 2) (by omega) (by omega) (by simpa using hne)
        rw [hf] at this
        cases this
      | true =>
        rw [Bool.not_true, if_neg Bool.false_ne_true]
        exact ih (by omega) (by omega) (by omega) hlow fun k hk hkn => hmono _ k hk hkn hf

lemma search_spec :
    search n f ≤ n ∧ (∀ k < search n f, f k = false) ∧ ∀ k, search n f ≤ k → k < n → f k = true :=
  loop_spec hmono le_rfl (Nat.zero_le n) le_rfl (by simp) (by omega)

omit hmono

/-- The predicate holds from `k` on. -/
lemma search_eq {k : ℕ} (hk : k ≤ n) (hf : ∀ i < n, f i = decide (k ≤ i)) : search n f = k := by
  obtain ⟨hle, hlow, hhigh⟩ := search_spec (n := n) (f := f) (by grind)
  by_contra hne
  rcases Nat.lt_or_gt_of_ne hne with hlt | hgt
  · grind [hhigh _ le_rfl (by omega)]
  · grind [hlow k hgt]

variable {α : Type} {p : α → Bool} {l : List α}

/-- A list is split where a property starts to hold of its elements. -/
lemma search_list (hf : ∀ i (hi : i < l.length), f i = p l[i])
    (hp : l.Pairwise fun a b => p a = true → p b = true) :
    ∃ pre post, l = pre ++ post ∧ search l.length f = pre.length ∧ (∀ x ∈ pre, p x = false) ∧
      ∀ x ∈ post, p x = true := by
  have hsplit : ∃ pre post, l = pre ++ post ∧ (∀ x ∈ pre, p x = false) ∧
    ∀ x ∈ post, p x = true := by
    clear hf
    induction l with
    | nil => exact ⟨[], [], by simp⟩
    | cons a l ih =>
      obtain ⟨ha, hl⟩ := List.pairwise_cons.1 hp
      cases hpa : p a with
      | true => exact ⟨[], a :: l, by simpa [hpa] using ha⟩
      | false =>
        obtain ⟨pre, post, rfl, hpre, hpost⟩ := ih hl
        exact ⟨a :: pre, post, by simpa [hpa] using ⟨hpre, hpost⟩⟩
  obtain ⟨pre, post, rfl, hpre, hpost⟩ := hsplit
  refine ⟨pre, post, rfl, search_eq (by simp) fun i hi => ?_, hpre, hpost⟩
  rw [hf i hi, List.getElem_append]
  split_ifs with h <;> grind

lemma loop_congr {g : ℕ → Bool} (h : ∀ i < n, f i = g i) {fuel i j : ℕ} (hj : j ≤ n) :
    loop f fuel i j = loop g fuel i j := by
  induction fuel generalizing i j with
  | zero => rfl
  | succ fuel ih =>
    rw [loop, loop]
    split
    case isFalse => rfl
    case isTrue hlt =>
      dsimp only
      rw [h ((i + j) / 2) (by omega), ih hj, ih (by omega)]

/-- Only the values below `n` matter. -/
lemma search_congr {g : ℕ → Bool} (h : ∀ i < n, f i = g i) : search n f = search n g :=
  loop_congr h le_rfl

end BinarySearch
