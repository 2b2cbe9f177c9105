import Mathlib

/-!
# Slices that share an array

A slice is a window onto an array, and several slices may show parts of the same one. Appending to a
slice writes behind its last element, into the same array if there is room and into a new one
otherwise. The writes are seen through every slice of the array.

A slice that ends where another one ends, or earlier, shows nothing of what is appended to the other
(`Slice.Before`). So a buffer that only grows can be cut into slices that stay as they are
(`Appends.read_before`).
-/

namespace GoSlice

open List

variable {α : Type}

/-- The arrays, by their addresses. -/
abbrev Mem (α : Type) := List (List α)

/-- The elements from `off` on of the array at `arr`: `len` of them, with room for `cap`. -/
structure Slice where
  arr : ℕ
  off : ℕ
  len : ℕ
  cap : ℕ
deriving DecidableEq

namespace Slice

/-- A slice without an array. -/
def nil : Slice := ⟨0, 0, 0, 0⟩

/-- `s[:0]`. -/
def reset (s : Slice) : Slice := { s with len := 0 }

/-- `s[start:]`, which fails if the slice is shorter. -/
def tail (s : Slice) (start : ℕ) : Option Slice :=
  if start ≤ s.len then some ⟨s.arr, s.off + start, s.len - start, s.cap - start⟩ else none

end Slice

namespace Mem

variable (m : Mem α)

/-- The array at an address. -/
def array (a : ℕ) : List α := m.getD a []

def read (s : Slice) : List α := ((m.array s.arr).drop s.off).take s.len

/-- The elements of an array from `i` on are overwritten with `xs`. -/
def write (a i : ℕ) (xs : List α) : Mem α :=
  m.modify a fun arr => arr.take i ++ xs ++ arr.drop (i + xs.length)

variable (spare : ℕ → ℕ → ℕ)

/-- `append`. A new array has `spare` elements more than there are needed, which may depend on the
old capacity and on the new length. -/
def append (zero : α) (m : Mem α) (s : Slice) (xs : List α) : Mem α × Slice :=
  let n := s.len + xs.length
  if n ≤ s.cap then (m.write s.arr (s.off + s.len) xs, { s with len := n })
  else
    (m ++ [m.read s ++ xs ++ List.replicate (spare s.cap n) zero],
      ⟨m.length, 0, n, n + spare s.cap n⟩)

/-- Some pieces are appended one after the other. -/
def appendAll (zero : α) (m : Mem α) (s : Slice) (pieces : List (List α)) : Mem α × Slice :=
  pieces.foldl (fun (m, s) xs => m.append spare zero s xs) (m, s)

end Mem

/-! ### What appending does -/

/-- The slice lies in its array. -/
structure Slice.Valid (m : Mem α) (s : Slice) : Prop where
  len_le : s.len ≤ s.cap
  cap_le : s.off + s.cap ≤ (m.array s.arr).length

/-- What `r` shows is not behind the end of `s`. -/
structure Slice.Before (m : Mem α) (r s : Slice) : Prop where
  allocated : r.arr < m.length
  ends : r.arr = s.arr → r.off + r.len ≤ s.off + s.len

/-- From `m` and `s` to `m'` and `s'`, the elements `xs` are appended. -/
structure Appends (m : Mem α) (s : Slice) (xs : List α) (m' : Mem α) (s' : Slice) : Prop where
  valid : s'.Valid m'
  read_eq : m'.read s' = m.read s ++ xs
  before : ∀ r : Slice, r.Before m s → r.Before m' s'
  read_before : ∀ r : Slice, r.Before m s → m'.read r = m.read r

namespace Slice

variable {m : Mem α} {s : Slice}

attribute [local simp] getD_eq_getElem?_getD

lemma valid_nil (m : Mem α) : nil.Valid m := ⟨Nat.le_refl _, Nat.zero_le _⟩

lemma Valid.reset (h : s.Valid m) : s.reset.Valid m := ⟨Nat.zero_le _, h.cap_le⟩

@[simp] lemma read_reset (m : Mem α) (s : Slice) : m.read s.reset = [] := take_zero

lemma Valid.length_read (h : s.Valid m) : (m.read s).length = s.len := by
  have hlen := h.len_le
  have hcap := h.cap_le
  rw [Mem.read, length_take, length_drop]
  omega

/-- A slice with elements has an array. -/
lemma Valid.arr_lt (h : s.Valid m) (hpos : 0 < s.len) : s.arr < m.length := by
  by_contra hge
  have hnil : m.array s.arr = [] := by
    rw [Mem.array, getD_eq_getElem?_getD, getElem?_eq_none (Nat.le_of_not_lt hge)]
    rfl
  have hlen := h.len_le
  have hcap := h.cap_le
  rw [hnil, length_nil] at hcap
  omega

end Slice

variable {m : Mem α} {a : ℕ}

namespace Mem

lemma array_write_of_ne {b : ℕ} (h : b ≠ a) (i : ℕ) (xs : List α) :
    (m.write a i xs).array b = m.array b := by
  simp [array, write, h.symm]

lemma array_write (h : a < m.length) (i : ℕ) (xs : List α) : (m.write a i xs).array a =
      (m.array a).take i ++ xs ++ (m.array a).drop (i + xs.length) := by
  simp [array, write, getElem?_eq_getElem h]

lemma array_append_of_lt (h : a < m.length) (arr : List α) :
    Mem.array (m ++ [arr]) a = m.array a := by
  simp [array, getElem?_append_left h]

lemma array_append_length (m : Mem α) (arr : List α) : Mem.array (m ++ [arr]) m.length = arr := by
  simp [array]

/-- Writing behind the end of what a slice shows does not change it. -/
lemma take_drop_write {arr xs : List α} {off len i : ℕ} (h : off + len ≤ i) (hi : i ≤ arr.length) :
    ((arr.take i ++ xs ++ arr.drop (i + xs.length)).drop off).take len =
      (arr.drop off).take len := by
  have htake : (arr.take i).length = i := by
    rw [length_take, Nat.min_eq_left hi]
  rw [append_assoc, drop_append_of_le_length (by omega),
    take_append_of_le_length (by rw [length_drop]; omega), drop_take, take_take,
    Nat.min_eq_left (by omega)]

end Mem

namespace Appends

variable {m m' m'' : Mem α} {s s' s'' : Slice} {xs ys : List α}

lemma refl (h : s.Valid m) : Appends m s [] m s :=
  ⟨h, (append_nil _).symm, fun _ hr => hr, fun _ _ => rfl⟩

lemma trans (h : Appends m s xs m' s') (h' : Appends m' s' ys m'' s'') :
    Appends m s (xs ++ ys) m'' s'' where
  valid := h'.valid
  read_eq := by rw [h'.read_eq, h.read_eq, append_assoc]
  before r hr := h'.before r (h.before r hr)
  read_before r hr := (h'.read_before r (h.before r hr)).trans (h.read_before r hr)

lemma len_eq (h : Appends m s xs m' s') (hs : s.Valid m) : s'.len = s.len + xs.length := by
  rw [← h.valid.length_read, h.read_eq, length_append, hs.length_read]

/-- There is room in the array. -/
lemma inPlace (hs : s.Valid m) (hroom : s.len + xs.length ≤ s.cap) (hpos : 0 < xs.length) :
    Appends m s xs (m.write s.arr (s.off + s.len) xs) { s with len := s.len + xs.length } := by
  have hcap := hs.cap_le
  have hlt : s.arr < m.length :=
    Slice.Valid.arr_lt (s := { s with len := s.cap }) ⟨Nat.le_refl _, hcap⟩
      (Nat.lt_of_lt_of_le (by omega) hroom)
  have harr := Mem.array_write hlt (s.off + s.len) xs
  have htake : ((m.array s.arr).take (s.off + s.len)).length = s.off + s.len := by
    rw [length_take, Nat.min_eq_left (by omega)]
  refine ⟨⟨hroom, ?_⟩, ?_, ?_, ?_⟩
  · show s.off + s.cap ≤ ((m.write s.arr (s.off + s.len) xs).array s.arr).length
    rw [harr, length_append, length_append, htake, length_drop]
    omega
  · show (((m.write s.arr (s.off + s.len) xs).array s.arr).drop s.off).take (s.len + xs.length) = _
    rw [harr, append_assoc, drop_append_of_le_length (by omega), drop_take,
      ← append_assoc, Nat.add_sub_cancel_left]
    exact take_left' (by
      rw [length_append, length_take, length_drop, Nat.min_eq_left (by omega)])
  · intro r hr
    refine ⟨by simpa [Mem.write] using hr.allocated, fun heq => ?_⟩
    exact Nat.le_trans (hr.ends heq) (by simp)
  · intro r hr
    -- only the array of `s` is written, behind the end of `s`
    rw [Mem.read, Mem.read]
    by_cases heq : r.arr = s.arr
    · rw [heq, harr]
      exact Mem.take_drop_write (hr.ends heq) (by omega)
    · rw [Mem.array_write_of_ne heq]

/-- The elements are copied to a new array. -/
lemma copy (hs : s.Valid m) (zero : α) (k : ℕ) :
    Appends m s xs (m ++ [m.read s ++ xs ++ replicate k zero])
      ⟨m.length, 0, s.len + xs.length, s.len + xs.length + k⟩ := by
  have hread := hs.length_read
  refine ⟨⟨Nat.le_add_right _ _, ?_⟩, ?_, ?_, ?_⟩
  · rw [Mem.array_append_length]
    simp [hread, Nat.add_assoc]
  · rw [Mem.read, Mem.array_append_length, drop_zero]
    exact take_left' (by rw [length_append, hread])
  · intro r hr
    have hlt := hr.allocated
    refine ⟨by rw [length_append]; omega, fun heq => ?_⟩
    exact absurd heq (Nat.ne_of_lt hlt)
  · intro r hr
    rw [Mem.read, Mem.array_append_of_lt hr.allocated]
    rfl

end Appends

lemma Mem.write_nil (m : Mem α) (a i : ℕ) : m.write a i [] = m := by
  simp only [write, append_nil, length_nil, Nat.add_zero, take_append_drop]
  exact modify_id a m

lemma Mem.appends_append {s : Slice} (hs : s.Valid m) (spare : ℕ → ℕ → ℕ) (zero : α)
    (xs : List α) :
    Appends m s xs (m.append spare zero s xs).1 (m.append spare zero s xs).2 := by
  unfold Mem.append
  by_cases hroom : s.len + xs.length ≤ s.cap
  · rw [if_pos hroom]
    cases xs with
    | nil =>
      rw [Mem.write_nil]
      exact .refl hs
    | cons x xs => exact .inPlace hs hroom (Nat.succ_pos _)
  · rw [if_neg hroom]
    exact .copy hs zero _

lemma Mem.appends_appendAll {s : Slice} (hs : s.Valid m) (spare : ℕ → ℕ → ℕ) (zero : α)
    (pieces : List (List α)) :
    Appends m s pieces.flatten (m.appendAll spare zero s pieces).1
      (m.appendAll spare zero s pieces).2 := by
  induction pieces generalizing m s with
  | nil => exact .refl hs
  | cons xs pieces ih =>
    have hfirst := m.appends_append hs spare zero xs
    exact hfirst.trans (ih hfirst.valid)

/-- What was appended is a slice of its own. -/
lemma Appends.tail {m m' : Mem α} {s s' : Slice} {xs : List α} (h : Appends m s xs m' s')
    (hs : s.Valid m) (hpos : xs ≠ []) :
    ∃ r, s'.tail s.len = some r ∧ r.len = xs.length ∧ m'.read r = xs ∧ r.Before m' s' := by
  have hlen := h.len_eq hs
  have hxs := length_pos_iff.2 hpos
  refine ⟨_, if_pos (by omega), ?_, ?_, h.valid.arr_lt (by omega), fun _ => ?_⟩
  · show s'.len - s.len = xs.length
    omega
  · have hread := h.read_eq
    rw [Mem.read] at hread
    show ((m'.array s'.arr).drop (s'.off + s.len)).take (s'.len - s.len) = xs
    rw [← drop_drop, ← drop_take, hread]
    exact drop_left' hs.length_read
  · show s'.off + s.len + (s'.len - s.len) ≤ s'.off + s'.len
    omega

end GoSlice
