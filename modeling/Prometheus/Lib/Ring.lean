import Mathlib

/-!
# Ring buffers

A ring buffer is a list of cells with a position and a count: its contents are so many cells from
that position on, with the first cell after the last one. They are read off the rotated list, so
that moving the position is `List.rotate_rotate`.
-/

namespace Ring

open List Nat

variable {α : Type*} {cells : List α} {first count : ℕ}

def contents (cells : List α) (first count : ℕ) : List α :=
  (cells.rotate first).take count

lemma contents_mod : contents cells (first % cells.length) count = contents cells first count := by
  rw [contents, rotate_mod, contents]

lemma length_contents (h : count ≤ cells.length) : (contents cells first count).length = count := by
  rw [contents, length_take, length_rotate, min_eq_left h]

/-- Going on to the next cell. -/
lemma succ_mod (h : 0 < cells.length) :
    (if first % cells.length + 1 = cells.length then 0 else first % cells.length + 1) =
      (first + 1) % cells.length := by
  have hlt := mod_lt first h
  rw [← mod_add_mod]
  split_ifs with hlast
  · rw [hlast, mod_self]
  · exact (mod_eq_of_lt (by omega)).symm

/-- Where an element of the contents is. -/
lemma contents_getElem? (h : count ≤ cells.length) {k : ℕ} (hk : k < count) :
    (contents cells first count)[k]? = cells[(first + k) % cells.length]? := by
  rw [contents, getElem?_take_of_lt hk, getElem?_rotate (by omega), add_comm]

/-- Positions that are less than a turn apart are at different cells. -/
lemma mod_ne_mod {v w a c : ℕ} (hv : a ≤ v) (hw : a ≤ w) (hvc : v < a + c) (hwc : w < a + c)
    (hne : v ≠ w) : v % c ≠ w % c := by
  refine (mod_injOn_Ico a c).ne ?_ ?_ hne
  · exact Finset.mem_coe.2 (Finset.mem_Ico.2 ⟨hv, hvc⟩)
  · exact Finset.mem_coe.2 (Finset.mem_Ico.2 ⟨hw, hwc⟩)

/-- Write to the cell after the last one. -/
lemma contents_set (h : count < cells.length) (a : α) :
    contents (cells.set ((first + count) % cells.length) a) first (count + 1) =
      contents cells first count ++ [a] := by
  have hlen := @length_contents _ cells first _ h.le
  have hset : count + 1 ≤ (cells.set ((first + count) % cells.length) a).length := by
    rwa [length_set]
  refine ext_getElem? fun k => ?_
  rcases lt_trichotomy k count with hk | rfl | hk
  · rw [contents_getElem? hset (by omega), getElem?_append_left (by omega),
      contents_getElem? h.le hk, length_set, getElem?_set_ne]
    exact mod_ne_mod (le_add_right _ _) (le_add_right _ _) (by omega) (by omega) (by omega)
  · rw [contents_getElem? hset (by omega), getElem?_append_right hlen.le, hlen,
      length_set, getElem?_set_self (mod_lt _ (by omega))]
    simp
  · rw [getElem?_eq_none, getElem?_eq_none]
    · rw [length_append, hlen]
      exact hk
    · rw [length_contents hset]
      exact hk

/-- Drop the first element. -/
lemma contents_succ (h : count + 1 ≤ cells.length) :
    ∃ a, cells[first % cells.length]? = some a ∧
      contents cells first (count + 1) = a :: contents cells (first + 1) count := by
  have hlt : first % cells.length < cells.length := mod_lt _ (by omega)
  refine ⟨_, getElem?_eq_getElem hlt, ?_⟩
  have hne : cells.rotate first ≠ [] := by
    rw [ne_eq, rotate_eq_nil_iff]
    rintro rfl
    simp at h
  obtain ⟨a, as, has⟩ := exists_cons_of_ne_nil hne
  have ha : a = cells[first % cells.length] := by
    have := @contents_getElem? _ _ first _ h 0 (succ_pos count)
    simpa [contents, has, getElem?_eq_getElem hlt] using this
  -- one more rotation moves `a` to the end, where so short a list does not see it
  have hlen : as.length + 1 = cells.length := by
    rw [← @List.length_cons _ a, ← has, length_rotate]
  rw [contents, contents, ← rotate_rotate, has, take_succ_cons, ha, rotate_cons_succ,
    rotate_zero, take_append_of_le_length (by omega)]

end Ring
