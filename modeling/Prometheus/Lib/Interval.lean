import Mathlib

/-!
# Half-open intervals

Things that occupy a half-open interval `[lo x, hi x)` of a linear order, in a list in the order of
their starts. `ChainConnected` says that a list is one group: one gets from each member to each
other one by overlaps. `IsFirstGroup` cuts the first such group out of a list.
-/

namespace Interval

open List

variable {β α : Type} [LinearOrder α]

/-- `a` and `b` have a point in common. -/
def Overlap (lo hi : β → α) (a b : β) : Prop :=
  lo a < hi b ∧ lo b < hi a

instance (lo hi : β → α) (a b : β) : Decidable (Overlap lo hi a b) :=
  inferInstanceAs (Decidable (_ ∧ _))

variable {lo hi : β → α} {a b x : β} {g l pre post : List β}

lemma Overlap.symm (h : Overlap lo hi a b) : Overlap lo hi b a :=
  ⟨h.2, h.1⟩

lemma not_overlap_of_le (h : hi a ≤ lo b) : ¬Overlap lo hi a b :=
  fun hab => h.not_gt hab.2

/-- Where nothing overlaps, what starts first also ends before the other one starts. -/
lemma le_of_not_overlap (hb : lo b < hi b) (hab : lo a ≤ lo b) (h : ¬Overlap lo hi a b) :
    hi a ≤ lo b :=
  not_lt.1 fun hlt => h ⟨lt_of_le_of_lt hab hb, hlt⟩

lemma pairwise_le_of_not_overlap (hl : ∀ x ∈ l, lo x < hi x)
    (hsorted : l.Pairwise fun a b => lo a ≤ lo b)
    (h : l.Pairwise fun a b => ¬Overlap lo hi a b) : l.Pairwise fun a b => hi a ≤ lo b := by
  induction l with
  | nil => exact List.Pairwise.nil
  | cons x l ih =>
    obtain ⟨hx, hrest⟩ := pairwise_cons.1 h
    obtain ⟨hxs, hsrest⟩ := pairwise_cons.1 hsorted
    refine pairwise_cons.2 ⟨fun y hy => ?_, ih (fun y hy => hl y (by simp [hy])) hsrest hrest⟩
    exact le_of_not_overlap (hl y (by simp [hy])) (hxs y hy) (hx y hy)

/-! ### Groups -/

/-- One gets from each member to each other one by overlaps of members. -/
def ChainConnected (lo hi : β → α) (g : List β) : Prop :=
  ∀ a ∈ g, ∀ b ∈ g, Relation.ReflTransGen (fun x y => y ∈ g ∧ Overlap lo hi x y) a b

lemma chainConnected_singleton (a : β) : ChainConnected lo hi [a] := by
  intro x hx y hy
  obtain rfl := mem_singleton.1 hx
  obtain rfl := mem_singleton.1 hy
  exact .refl

/-- One more member, which overlaps one of the others. -/
lemma ChainConnected.concat (hg : ChainConnected lo hi g) (ha : a ∈ g)
    (hax : Overlap lo hi a x) : ChainConnected lo hi (g ++ [x]) := by
  have hold : ∀ b ∈ g, ∀ c ∈ g, Relation.ReflTransGen
      (fun x' y => y ∈ g ++ [x] ∧ Overlap lo hi x' y) b c := fun b hb c hc =>
    (hg b hb c hc).lift id fun _ _ hstep => ⟨mem_append_left _ hstep.1, hstep.2⟩
  have hto : Relation.ReflTransGen (fun x' y => y ∈ g ++ [x] ∧ Overlap lo hi x' y) a x :=
    .single ⟨by simp, hax⟩
  have hfrom : Relation.ReflTransGen (fun x' y => y ∈ g ++ [x] ∧ Overlap lo hi x' y) x a :=
    .single ⟨mem_append_left _ ha, hax.symm⟩
  intro b hb c hc
  rcases mem_append.1 hb with hbg | hbx <;> rcases mem_append.1 hc with hcg | hcx
  · exact hold b hbg c hcg
  · rw [mem_singleton.1 hcx]
    exact (hold b hbg a ha).trans hto
  · rw [mem_singleton.1 hbx]
    exact hfrom.trans (hold a ha c hcg)
  · rw [mem_singleton.1 hbx, mem_singleton.1 hcx]

/-- `g` is the first group of more than one member: nothing before it overlaps anything, and nothing
after it overlaps a member. -/
structure IsFirstGroup (lo hi : β → α) (pre g post : List β) : Prop where
  alone : pre.Pairwise fun a b => ¬Overlap lo hi a b
  apart : ∀ a ∈ pre, ∀ b ∈ g ++ post, ¬Overlap lo hi a b
  connected : ChainConnected lo hi g
  overlap : ¬g.Pairwise fun a b => ¬Overlap lo hi a b
  maximal : ∀ a ∈ g, ∀ b ∈ post, ¬Overlap lo hi a b

lemma IsFirstGroup.not_pairwise (h : IsFirstGroup lo hi pre g post) :
    ¬(pre ++ g ++ post).Pairwise fun a b => ¬Overlap lo hi a b := fun hall =>
  h.overlap (pairwise_append.1 (pairwise_append.1 hall).1).2.1

end Interval
