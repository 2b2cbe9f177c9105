import Mathlib

/-!
# Doubly linked lists with a sentinel

Nodes are addresses, and the links are two functions on addresses. `IsList next prev s l` says that
from the sentinel `s` the forward links lead through the nodes `l` and back to `s`, and the backward
links lead through them in the opposite order. The operations are the pointer assignments that
programs write: two to take a node out, four to put one in at either end.

A list read backwards is a list (`IsList.reverse`), so what holds at one end holds at the other.
-/

namespace LinkedList

open List Function

variable {A : Type*} {next prev : A → A} {l : List A} {a b : A}

/-- The links lead from `a` through `l` to `b`, and back. -/
def Chain (next prev : A → A) : A → List A → A → Prop
  | a, [], b => next a = b ∧ prev b = a
  | a, x :: l, b => (next a = x ∧ prev x = a) ∧ Chain next prev x l b

/-- The nodes of the list with the sentinel `s` are `l`. -/
structure IsList (next prev : A → A) (s : A) (l : List A) : Prop where
  chain : Chain next prev s l s
  nodup : (s :: l).Nodup

/-! ### Chains -/

lemma chain_append {a b x : A} {l₁ l₂ : List A} :
    Chain next prev a (l₁ ++ x :: l₂) b ↔ Chain next prev a l₁ x ∧ Chain next prev x l₂ b := by
  induction l₁ generalizing a with
  | nil => rfl
  | cons y l₁ ih => simp only [cons_append, Chain, ih, and_assoc]

/-- Only the forward links of the start and of the nodes matter, and the backward links of the nodes
and of the end. -/
lemma Chain.congr {next' prev' : A → A} (h : Chain next prev a l b)
    (hnext : ∀ x ∈ a :: l, next' x = next x) (hprev : ∀ x ∈ b :: l, prev' x = prev x) :
    Chain next' prev' a l b := by
  induction l generalizing a with
  | nil => exact ⟨(hnext a (by simp)).trans h.1, (hprev b (by simp)).trans h.2⟩
  | cons y l ih =>
    refine ⟨⟨(hnext a (by simp)).trans h.1.1, (hprev y (by simp)).trans h.1.2⟩, ih h.2 ?_ ?_⟩
    · intro x hx
      exact hnext x (mem_cons_of_mem a hx)
    intro x hx
    refine hprev x ?_
    rcases mem_cons.1 hx with rfl | hx
    · exact mem_cons_self
    · exact mem_cons_of_mem b (mem_cons_of_mem y hx)

theorem Chain.reverse (h : Chain next prev a l b) : Chain prev next b l.reverse a := by
  induction l generalizing a with
  | nil => exact ⟨h.2, h.1⟩
  | cons y l ih =>
    rw [reverse_cons, chain_append]
    exact ⟨ih h.2, h.1.2, h.1.1⟩

lemma Chain.prev_mem (h : Chain next prev a l b) : prev b ∈ a :: l := by
  induction l generalizing a with
  | nil => exact h.2 ▸ mem_cons_self
  | cons y l ih => exact mem_cons_of_mem a (ih h.2)

variable [DecidableEq A]

/-- The last link of a chain, set to another end. -/
lemma Chain.retarget {a b c : A} (h : Chain next prev a l b) (hnodup : (a :: l).Nodup)
    (hc : c ∉ l) :
    Chain (update next (prev b) c) (update prev c (prev b)) a l c := by
  induction l generalizing a with
  | nil =>
    have hlast : prev b = a := h.2
    exact ⟨by rw [hlast, update_self], by rw [hlast, update_self]⟩
  | cons y l ih =>
    obtain ⟨⟨hnext, hprev⟩, htail⟩ := h
    have hy := ne_of_not_mem_cons hc
    have hl := not_mem_of_not_mem_cons hc
    obtain ⟨ha, hnodup⟩ := nodup_cons.1 hnodup
    have hlast : a ≠ prev b := fun he => ha (he ▸ htail.prev_mem)
    refine ⟨⟨?_, ?_⟩, ih htail hnodup hl⟩
    · rw [update_of_ne hlast, hnext]
    · rw [update_of_ne (Ne.symm hy), hprev]

/-! ### Lists -/

variable {s x : A} {l l₁ l₂ : List A}

omit [DecidableEq A] in
lemma isList_nil (hnext : next s = s) (hprev : prev s = s) : IsList next prev s [] :=
  ⟨⟨hnext, hprev⟩, nodup_singleton s⟩

omit [DecidableEq A] in
lemma IsList.congr {next' prev' : A → A} (h : IsList next prev s l)
    (hnext : ∀ x ∈ s :: l, next' x = next x) (hprev : ∀ x ∈ s :: l, prev' x = prev x) :
    IsList next' prev' s l :=
  ⟨h.chain.congr hnext hprev, h.nodup⟩

omit [DecidableEq A] in
theorem IsList.reverse (h : IsList next prev s l) : IsList prev next s l.reverse where
  chain := h.chain.reverse
  nodup := by
    obtain ⟨hs, hl⟩ := nodup_cons.1 h.nodup
    exact nodup_cons.2 ⟨by rwa [mem_reverse], nodup_reverse.2 hl⟩

omit [DecidableEq A] in
lemma IsList.next_sentinel (h : IsList next prev s l) : next s = l.headD s := by
  cases l with
  | nil => exact h.chain.1
  | cons x l => exact h.chain.1.1

omit [DecidableEq A] in
lemma IsList.prev_sentinel (h : IsList next prev s l) : prev s = l.getLastD s := by
  have hhead := h.reverse.next_sentinel
  rwa [headD_eq_head?_getD, head?_reverse, ← getLastD_eq_getLast?] at hhead

omit [DecidableEq A] in
/-- The sentinel links to itself just when there is no node. -/
lemma IsList.prev_sentinel_eq_iff (h : IsList next prev s l) : prev s = s ↔ l = [] := by
  rw [h.prev_sentinel]
  constructor
  · intro hlast
    by_contra hne
    have hmem := getLast_mem hne
    rw [getLastD_eq_getLast?, getLast?_eq_some_getLast hne, Option.getD_some] at hlast
    exact (nodup_cons.1 h.nodup).1 (hlast ▸ hmem)
  · rintro rfl
    rfl

/-- Take a node out: `x.prev.next = x.next` and `x.next.prev = x.prev`. -/
lemma IsList.unlink (h : IsList next prev s (l₁ ++ x :: l₂)) :
    IsList (update next (prev x) (next x)) (update prev (next x) (prev x)) s (l₁ ++ l₂) := by
  obtain ⟨hleft, hright⟩ := chain_append.1 h.chain
  have hnodup : (s :: l₁ ++ x :: l₂).Nodup := h.nodup
  obtain ⟨hnodup₁, hnodup₂, hdisjoint⟩ := nodup_append.1 hnodup
  have hs : s ∉ l₁ := (nodup_cons.1 hnodup₁).1
  have hlast : prev x ∈ s :: l₁ := hleft.prev_mem
  refine ⟨?_, ?_⟩
  · cases l₂ with
    | nil =>
      -- the last node: the one before it becomes the last
      have hnext : next x = s := hright.1
      rw [hnext, append_nil]
      exact hleft.retarget hnodup₁ hs
    | cons y l₂ =>
      have hnext : next x = y := hright.1.1
      have hy : y ∈ x :: y :: l₂ := by simp
      rw [hnext, chain_append]
      refine ⟨hleft.retarget hnodup₁ fun hmem => ?_, hright.2.congr (fun z hz => ?_) fun z hz => ?_⟩
      · exact hdisjoint y (mem_cons_of_mem s hmem) y hy rfl
      · refine update_of_ne (fun he => ?_) _ _
        exact hdisjoint (prev x) hlast z (mem_cons_of_mem x hz) he.symm
      refine update_of_ne (fun he => ?_) _ _
      rw [he] at hz
      rcases mem_cons.1 hz with hz | hz
      · exact hdisjoint s mem_cons_self y hy hz.symm
      · exact (nodup_cons.1 (nodup_cons.1 hnodup₂).2).1 hz
  · exact (hnodup.sublist (List.Sublist.append_left (sublist_cons_self x l₂) (s :: l₁)))

/-- Put a node in at the end: `x.prev = s.prev`, `x.next = s`, `s.prev.next = x`, `s.prev = x`. -/
lemma IsList.insertLast (h : IsList next prev s l) (hx : x ∉ s :: l) :
    IsList (update (update next x s) (prev s) x)
      (update (update prev x (prev s)) s x) s (l ++ [x]) := by
  obtain ⟨hs, hnodup⟩ := nodup_cons.1 h.nodup
  have hxs := ne_of_not_mem_cons hx
  have hxl := not_mem_of_not_mem_cons hx
  have hlast : prev s ∈ s :: l := h.chain.prev_mem
  have hxlast : x ≠ prev s := fun he => hx (he ▸ hlast)
  refine ⟨?_, ?_⟩
  · refine chain_append.2 ⟨?_, ?_, ?_⟩
    · refine (h.chain.retarget h.nodup hxl).congr (fun z hz => ?_) fun z hz => ?_
      · have hzx : z ≠ x := fun he => hx (he ▸ hz)
        by_cases hzlast : z = prev s
        · rw [hzlast, update_self, update_self]
        · rw [update_of_ne hzlast, update_of_ne hzx, update_of_ne hzlast]
      · rcases mem_cons.1 hz with rfl | hz
        · rw [update_of_ne hxs]
        · have hzs : z ≠ s := fun he => hs (he ▸ hz)
          rw [update_of_ne hzs]
    · rw [update_of_ne hxlast, update_self]
    · rw [update_self]
  · rw [← cons_append]
    exact nodup_append.2 ⟨h.nodup, nodup_singleton x, fun a ha b hb => by
      rw [mem_singleton.1 hb]
      exact fun he => hx (he ▸ ha)⟩

/-- Put a node in at the front: `x.prev = s`, `x.next = s.next`, `s.next.prev = x`, `s.next = x`. -/
lemma IsList.insertFirst (h : IsList next prev s l) (hx : x ∉ s :: l) :
    IsList (update (update next x (next s)) s x)
      (update (update prev x s) (next s) x) s (x :: l) := by
  have hx' : x ∉ s :: l.reverse := by simpa using hx
  simpa using (h.reverse.insertLast hx').reverse

/-! ### Nodes in memory -/

/-- A node: what it holds, and its links. -/
structure Cell (A D : Type*) where
  data : D
  prev : A
  next : A

variable {D : Type*}

variable (heap : A → Cell A D)

def setNext (a b : A) : A → Cell A D :=
  Function.update heap a { heap a with next := b }

def setPrev (a b : A) : A → Cell A D :=
  Function.update heap a { heap a with prev := b }

def setData (a : A) (d : D) : A → Cell A D :=
  Function.update heap a { heap a with data := d }

/-- `x.prev.next = x.next` and `x.next.prev = x.prev`. The order makes no difference: the two assign
to different fields. -/
def unlink (x : A) : A → Cell A D :=
  setPrev (setNext heap (heap x).prev (heap x).next) (heap x).next (heap x).prev

/-- A new node between `a` and `b`. -/
def link (x : A) (d : D) (a b : A) : A → Cell A D :=
  setPrev (setNext (Function.update heap x ⟨d, a, b⟩) a x) b x

def nexts : A → A := Cell.next ∘ heap

def prevs : A → A := Cell.prev ∘ heap

/-- The nodes of the list with the sentinel `s`. -/
def Holds (s : A) (l : List A) : Prop :=
  IsList (nexts heap) (prevs heap) s l

variable {heap : A → Cell A D} {a b : A} {d : D} (c : Cell A D) (z : A)

@[simp] lemma nexts_update : nexts (update heap x c) = update (nexts heap) x c.next :=
  comp_update ..

@[simp] lemma prevs_update : prevs (update heap x c) = update (prevs heap) x c.prev :=
  comp_update ..

@[simp] lemma nexts_setNext : nexts (setNext heap a b) = update (nexts heap) a b :=
  nexts_update _

@[simp] lemma prevs_setNext : prevs (setNext heap a b) = prevs heap := by
  rw [setNext, prevs_update]
  exact update_eq_self a (prevs heap)

@[simp] lemma prevs_setPrev : prevs (setPrev heap a b) = update (prevs heap) a b :=
  prevs_update _

@[simp] lemma nexts_setPrev : nexts (setPrev heap a b) = nexts heap := by
  rw [setPrev, nexts_update]
  exact update_eq_self a (nexts heap)

@[simp] lemma nexts_setData : nexts (setData heap a d) = nexts heap := by
  rw [setData, nexts_update]
  exact update_eq_self a (nexts heap)

@[simp] lemma prevs_setData : prevs (setData heap a d) = prevs heap := by
  rw [setData, prevs_update]
  exact update_eq_self a (prevs heap)

lemma data_update : (update heap x c z).data = if z = x then c.data else (heap z).data := by
  rw [update_apply]
  split_ifs <;> rfl

@[simp] lemma data_setNext : (setNext heap a b z).data = (heap z).data := by
  rw [setNext, data_update]
  split_ifs with h
  · rw [h]
  · rfl

@[simp] lemma data_setPrev : (setPrev heap a b z).data = (heap z).data := by
  rw [setPrev, data_update]
  split_ifs with h
  · rw [h]
  · rfl

@[simp] lemma data_unlink : (unlink heap x z).data = (heap z).data := by
  rw [unlink, data_setPrev, data_setNext]

lemma data_link : (link heap x d a b z).data = if z = x then d else (heap z).data := by
  rw [link, data_setPrev, data_setNext, data_update]

lemma Holds.unlink (h : Holds heap s (l₁ ++ x :: l₂)) :
    Holds (LinkedList.unlink heap x) s (l₁ ++ l₂) := by
  have hlist := IsList.unlink h
  rwa [Holds, LinkedList.unlink, nexts_setPrev, prevs_setPrev, nexts_setNext, prevs_setNext]

variable (h : Holds heap s l)
include h

lemma Holds.linkLast (hx : x ∉ s :: l) (d : D) :
    Holds (link heap x d (heap s).prev s) s (l ++ [x]) := by
  have hlist := IsList.insertLast h hx
  rwa [Holds, link, nexts_setPrev, prevs_setPrev, nexts_setNext, prevs_setNext, nexts_update,
    prevs_update]

lemma Holds.linkFirst (hx : x ∉ s :: l) (d : D) :
    Holds (link heap x d s (heap s).next) s (x :: l) := by
  have hlist := IsList.insertFirst h hx
  rwa [Holds, link, nexts_setPrev, prevs_setPrev, nexts_setNext, prevs_setNext, nexts_update,
    prevs_update]

lemma Holds.setData (a : A) (d : D) : Holds (LinkedList.setData heap a d) s l := by
  rwa [Holds, nexts_setData, prevs_setData]

/-- Memory that is not part of the list may be overwritten. -/
lemma Holds.update (hx : x ∉ s :: l) (c : Cell A D) : Holds (update heap x c) s l := by
  rw [Holds, nexts_update, prevs_update]
  have hne : ∀ z ∈ s :: l, z ≠ x := fun z hz he => hx (he ▸ hz)
  exact h.congr (fun z hz => update_of_ne (hne z hz) _ _) fun z hz => update_of_ne (hne z hz) _ _

end LinkedList
