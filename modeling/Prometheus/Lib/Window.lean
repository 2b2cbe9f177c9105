import Mathlib

/-!
# Numbered windows

A sequence whose elements are numbered as they come, and of which only a segment is kept: new
elements are added at the end, the last one can be amended, and elements are dropped at the front. A
window holds the segment and the number of its first element, so that a number is the position of an
element in the segment plus the number of the first.

Whatever happens to a window, a number stays with its element (`Steps.get?_some`), and a number
whose element was dropped finds nothing any more (`Numbered.get?_none`).
-/

namespace NumberedWindow

variable {α : Type}

@[ext] structure Window (α : Type) where
  first : ℕ
  items : List α

namespace Window

variable (w : Window α)

/-- The number that the next new element gets. -/
def next : ℕ :=
  w.first + w.items.length

/-- The element with number `n`. -/
def get? (n : ℕ) : Option α :=
  if n < w.first then none else w.items[n - w.first]?

def push (a : α) : Window α :=
  { w with items := w.items ++ [a] }

def drop (k : ℕ) : Window α :=
  ⟨w.first + k, w.items.drop k⟩

variable (w : Window α)

lemma get?_add (p : ℕ) : w.get? (w.first + p) = w.items[p]? := by
  rw [get?, if_neg (by omega), Nat.add_sub_cancel_left]

variable {w : Window α}

lemma get?_eq_some_iff {n : ℕ} {a : α} :
    w.get? n = some a ↔ ∃ p, n = w.first + p ∧ w.items[p]? = some a := by
  constructor
  · intro h
    have hle : ¬ n < w.first := fun hlt => by simp [get?, hlt] at h
    rw [get?, if_neg hle] at h
    exact ⟨n - w.first, by omega, h⟩
  · rintro ⟨p, rfl, hp⟩
    rw [get?_add, hp]

lemma get?_eq_none_iff {n : ℕ} : w.get? n = none ↔ n < w.first ∨ w.next ≤ n := by
  rw [get?, next]
  split <;> simp <;> omega

lemma mem_items_iff {a : α} : a ∈ w.items ↔ ∃ n, w.get? n = some a := by
  simp only [get?_eq_some_iff, List.mem_iff_getElem?]
  constructor
  · rintro ⟨p, hp⟩
    exact ⟨w.first + p, p, rfl, hp⟩
  · rintro ⟨-, p, -, hp⟩
    exact ⟨p, hp⟩

lemma next_push (a : α) : (w.push a).next = w.next + 1 := by
  simp [push, next, Nat.add_assoc]

lemma next_drop {k : ℕ} (hk : k ≤ w.items.length) : (w.drop k).next = w.next := by
  simp only [drop, next, List.length_drop]
  omega

end Window

open Window List

/-- One change of a window: a new element, which has the number `num` of it, an amendment of the
last element along `R`, or the loss of elements at the front. -/
inductive Step (num : α → ℕ) (R : α → α → Prop) : Window α → Window α → Prop
  | push (w : Window α) (a : α) (h : num a = w.next) : Step num R w (w.push a)
  | amend (first : ℕ) (l : List α) (a b : α) (h : R a b) :
      Step num R ⟨first, l ++ [a]⟩ ⟨first, l ++ [b]⟩
  | drop (w : Window α) (k : ℕ) (h : k ≤ w.items.length) : Step num R w (w.drop k)

/-- Any number of changes. -/
abbrev Steps (num : α → ℕ) (R : α → α → Prop) : Window α → Window α → Prop :=
  Relation.ReflTransGen (Step num R)

/-- Each element of the window has its own number. -/
def Numbered (num : α → ℕ) (w : Window α) : Prop :=
  ∀ n a, w.get? n = some a → num a = n

variable {num : α → ℕ} {R : α → α → Prop} {w w' : Window α} {n : ℕ}

lemma numbered_nil (first : ℕ) : Numbered num ⟨first, []⟩ := by
  intro n a h
  simp [get?] at h

/-- An element keeps its number in a change, unless it is dropped. -/
theorem Step.get?_some (hrefl : ∀ a, R a a) (h : Step num R w w') {a : α}
    (ha : w.get? n = some a) : (∃ a', w'.get? n = some a' ∧ R a a') ∨ n < w'.first := by
  obtain ⟨p, rfl, hp⟩ := get?_eq_some_iff.1 ha
  have hlt : p < w.items.length := (List.getElem?_eq_some_iff.1 hp).1
  cases h with
  | push _ a' hnum =>
    refine .inl ⟨a, get?_eq_some_iff.2 ⟨p, rfl, ?_⟩, hrefl a⟩
    exact (getElem?_append_left hlt).trans hp
  | amend first l b b' hR =>
    refine .inl ?_
    by_cases hlast : p < l.length
    · refine ⟨a, get?_eq_some_iff.2 ⟨p, rfl, ?_⟩, hrefl a⟩
      rwa [getElem?_append_left hlast] at hp ⊢
    -- Only the last element is amended.
    obtain rfl : p = l.length := by
      simp only [length_append, length_singleton] at hlt
      omega
    obtain rfl : b = a := by simpa using hp
    exact ⟨b', get?_eq_some_iff.2 ⟨l.length, rfl, by simp⟩, hR⟩
  | drop _ k hk =>
    by_cases hkept : p < k
    · exact .inr (Nat.add_lt_add_left hkept w.first)
    refine .inl ⟨a, get?_eq_some_iff.2 ⟨p - k, ?_, ?_⟩, hrefl a⟩
    · simp only [Window.drop]
      omega
    · simp only [Window.drop, getElem?_drop]
      rwa [Nat.add_sub_cancel' (by omega)]

lemma Step.first_le (h : Step num R w w') : w.first ≤ w'.first := by
  cases h with
  | push => exact le_rfl
  | amend => exact le_rfl
  | drop => exact Nat.le_add_right _ _

lemma Step.numbered (hR : ∀ a b, R a b → num a = num b) (h : Step num R w w')
    (hw : Numbered num w) : Numbered num w' := by
  intro n a ha
  obtain ⟨p, rfl, hp⟩ := get?_eq_some_iff.1 ha
  cases h with
  | push _ a' hnum =>
    simp only [Window.push, getElem?_append] at hp
    split at hp
    · exact hw _ _ (get?_eq_some_iff.2 ⟨p, rfl, hp⟩)
    -- The new element has the next number.
    obtain ⟨hlt, rfl⟩ := List.getElem?_eq_some_iff.1 hp
    have hlast : p = w.items.length := by
      simp only [length_singleton] at hlt
      omega
    simpa [Window.push, hlast, Window.next] using hnum
  | amend first l b b' hbb' =>
    by_cases hlast : p < l.length
    · rw [getElem?_append_left hlast] at hp
      refine hw _ _ (get?_eq_some_iff.2 ⟨p, rfl, ?_⟩)
      rwa [getElem?_append_left hlast]
    obtain ⟨hlt, -⟩ := List.getElem?_eq_some_iff.1 hp
    obtain rfl : p = l.length := by
      simp only [length_append, length_singleton] at hlt
      omega
    obtain rfl : b' = a := by simpa using hp
    rw [← hR b b' hbb']
    exact hw _ _ (get?_eq_some_iff.2 ⟨l.length, rfl, by simp⟩)
  | drop _ k hk =>
    simp only [Window.drop, getElem?_drop] at hp ⊢
    rw [Nat.add_assoc]
    exact hw _ _ (get?_eq_some_iff.2 ⟨k + p, rfl, hp⟩)

lemma Steps.numbered (hR : ∀ a b, R a b → num a = num b) (h : Steps num R w w')
    (hw : Numbered num w) : Numbered num w' := by
  induction h with
  | refl => exact hw
  | tail _ hstep ih => exact hstep.numbered hR ih

/-- A number finds its element, amended along `R`, or the element was dropped. -/
theorem Steps.get?_some (hrefl : ∀ a, R a a) (htrans : ∀ a b c, R a b → R b c → R a c)
    (h : Steps num R w w') {a : α} (ha : w.get? n = some a) :
    (∃ a', w'.get? n = some a' ∧ R a a') ∨ n < w'.first := by
  induction h with
  | refl => exact .inl ⟨a, ha, hrefl a⟩
  | tail _ hstep ih =>
    rcases ih with ⟨b, hb, hab⟩ | hlt
    · rcases hstep.get?_some hrefl hb with ⟨c, hc, hbc⟩ | hlt
      · exact .inl ⟨c, hc, htrans a b c hab hbc⟩
      · exact .inr hlt
    · exact .inr (lt_of_lt_of_le hlt hstep.first_le)

/-- A number that finds nothing is not the number of an element of the window. -/
theorem Numbered.get?_none (hw : Numbered num w) (h : w.get? n = none) :
    ∀ a ∈ w.items, num a ≠ n := by
  intro a ha hn
  obtain ⟨m, hm⟩ := mem_items_iff.1 ha
  rw [← hw m a hm, hn, h] at hm
  cases hm

end NumberedWindow
