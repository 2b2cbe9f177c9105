import Mathlib

/-!
# Merging the results of label queriers

`mergeResults` of `storage/merge.go`. Each querier returns strings in increasing order, and these
lists are merged two by two, in a tree over the queriers. Before and after each merge the lists are
truncated to the limit of the hints. What is cut off is not among the first strings of a merge
(`take_mergeStrings`), so that each level of the tree has the start of the union.
-/

namespace Prometheus.Storage

open List

variable {α Q W E : Type} [LinearOrder α]

structure LabelHints where
  limit : ℤ

/-- What a querier returns. Of the strings only their order matters. -/
structure LabelResult (α W E : Type) where
  strings : List α
  ws : List W
  err : Option E

def truncateToLimit (s : List α) (hints : Option LabelHints) : List α :=
  match hints with
  | none => s
  | some hints =>
    if hints.limit > 0 ∧ s.length > hints.limit then s.take hints.limit.toNat else s

def mergeStrings : List α → List α → List α
  | [], b => b
  | x :: a, [] => x :: a
  | x :: a, y :: b =>
    if x = y then x :: mergeStrings a b
    else if x < y then x :: mergeStrings a (y :: b)
    else y :: mergeStrings (x :: a) b

def mergeResults (hints : Option LabelHints) (resultsFn : Q → LabelResult α W E) :
    List Q → LabelResult α W E
  | [] => ⟨[], [], none⟩
  | [q] => resultsFn q
  | q :: q' :: qs =>
    let i := (qs.length + 2) / 2
    let r₁ := mergeResults hints resultsFn ((q :: q' :: qs).take i)
    if r₁.err.isSome then ⟨[], r₁.ws, r₁.err⟩
    else
      let r₂ := mergeResults hints resultsFn ((q :: q' :: qs).drop i)
      let ws := r₁.ws ++ r₂.ws
      if r₂.err.isSome then ⟨[], ws, r₂.err⟩
      else
        let s₁ := truncateToLimit r₁.strings hints
        let s₂ := truncateToLimit r₂.strings hints
        ⟨truncateToLimit (mergeStrings s₁ s₂) hints, ws, none⟩
termination_by lq => lq.length
decreasing_by all_goals (simp only [length_take, length_drop, length_cons]; omega)

/-! ### Merging and truncating -/

variable {a b : List α} {hints : LabelHints}

lemma mem_mergeStrings {z : α} : z ∈ mergeStrings a b ↔ z ∈ a ∨ z ∈ b := by
  fun_induction mergeStrings a b <;> grind

lemma pairwise_mergeStrings (ha : a.Pairwise (· < ·)) (hb : b.Pairwise (· < ·)) :
    (mergeStrings a b).Pairwise (· < ·) := by
  fun_induction mergeStrings a b <;> grind [mem_mergeStrings, pairwise_cons]

/-- The first strings of a merge are among the first ones of both lists. -/
theorem take_mergeStrings {n i j : ℕ} (hi : n ≤ i) (hj : n ≤ j) :
    (mergeStrings (a.take i) (b.take j)).take n = (mergeStrings a b).take n := by
  fun_induction mergeStrings a b generalizing n i j with
  | case1 b => simp [mergeStrings, take_take, hj]
  | _ => cases n <;> cases i <;> cases j <;> grind [mergeStrings]

lemma truncateToLimit_some (s : List α) : truncateToLimit s (some hints) =
    if 0 < hints.limit then s.take hints.limit.toNat else s := by
  rw [truncateToLimit]
  split_ifs with h <;> first | rfl | omega | rw [take_of_length_le (by omega)]

lemma truncateToLimit_mergeStrings :
    truncateToLimit (mergeStrings (truncateToLimit a (some hints)) (truncateToLimit b (some hints)))
      (some hints) = truncateToLimit (mergeStrings a b) (some hints) := by
  simp only [truncateToLimit_some]
  split_ifs
  · exact take_mergeStrings le_rfl le_rfl
  · rfl

/-! ### The tree of merges -/

/-- All strings that the queriers return, in increasing order. -/
def allStrings (resultsFn : Q → LabelResult α W E) (lq : List Q) : List α :=
  (lq.flatMap fun q => (resultsFn q).strings).toFinset.sort

variable {resultsFn : Q → LabelResult α W E}

lemma allStrings_eq {s : List α} {lq : List Q} (hs : s.Pairwise (· < ·))
    (hmem : ∀ z, z ∈ s ↔ ∃ q ∈ lq, z ∈ (resultsFn q).strings) : allStrings resultsFn lq = s :=
  (Finset.sortedLT_sort _).pairwise.eq_of_mem_iff hs (by simp [hmem])

/-- A merge of two parts of the list of queriers. -/
lemma allStrings_append (l₁ l₂ : List Q) : allStrings resultsFn (l₁ ++ l₂) =
    mergeStrings (allStrings resultsFn l₁) (allStrings resultsFn l₂) := by
  refine allStrings_eq (pairwise_mergeStrings ?_ ?_) fun z => ?_
  · exact (Finset.sortedLT_sort _).pairwise
  · exact (Finset.sortedLT_sort _).pairwise
  · simp [mem_mergeStrings, allStrings, or_and_right, exists_or]

/-- Up to the limit each level of the tree has the union. -/
lemma truncateToLimit_mergeResults (hints : LabelHints) (lq : List Q)
    (h : ∀ q ∈ lq, (resultsFn q).err = none ∧ (resultsFn q).strings.Pairwise (· < ·)) :
    let r := mergeResults (some hints) resultsFn lq
    let all := truncateToLimit (allStrings resultsFn lq) (some hints)
    r.err = none ∧ truncateToLimit r.strings (some hints) = all ∧
      (2 ≤ lq.length → r.strings = all) := by
  fun_induction mergeResults (some hints) resultsFn lq with
  | case1 => simp [allStrings]
  | case2 q =>
    obtain ⟨herr, hs⟩ := h q (by simp)
    exact ⟨herr, by rw [allStrings_eq hs (by simp)], by simp⟩
  | case3 q q' qs i r₁ herr ih =>
    rw [(ih fun x hx => h x (mem_of_mem_take hx)).1] at herr
    cases herr
  | case4 q q' qs i r₁ _ r₂ ws herr _ ih =>
    rw [(ih fun x hx => h x (mem_of_mem_drop hx)).1] at herr
    cases herr
  | case5 q q' qs i r₁ _ r₂ ws _ s₁ s₂ ih₁ ih₂ =>
    obtain ⟨-, h₁ : s₁ = _, -⟩ := ih₁ fun x hx => h x (mem_of_mem_take hx)
    obtain ⟨-, h₂ : s₂ = _, -⟩ := ih₂ fun x hx => h x (mem_of_mem_drop hx)
    rw [h₁, h₂, truncateToLimit_mergeStrings, ← allStrings_append, take_append_drop]
    refine ⟨rfl, ?_, fun _ => rfl⟩
    simp only [truncateToLimit_some]
    split_ifs <;> simp

/-- The merged result has every string once and in order, up to the limit, and the order of the
queriers does not matter. -/
theorem mergeResults_eq (resultsFn : Q → LabelResult α W E) (hints : LabelHints) (lq : List Q)
    (hlen : 2 ≤ lq.length)
    (h : ∀ q ∈ lq, (resultsFn q).err = none ∧ (resultsFn q).strings.Pairwise (· < ·)) :
    let r := mergeResults (some hints) resultsFn lq
    r.err = none ∧ (hints.limit ≤ 0 → r.strings = allStrings resultsFn lq) ∧
      (0 < hints.limit → r.strings = (allStrings resultsFn lq).take hints.limit.toNat) ∧
      ∀ lq', lq'.Perm lq → (mergeResults (some hints) resultsFn lq').strings = r.strings := by
  obtain ⟨herr, -, hall⟩ := truncateToLimit_mergeResults hints lq h
  rw [truncateToLimit_some] at hall
  refine ⟨herr, fun hle => ?_, fun hlt => ?_, fun lq' hperm => ?_⟩
  · rw [hall hlen, if_neg hle.not_gt]
  · rw [hall hlen, if_pos hlt]
  obtain ⟨-, -, hall'⟩ := truncateToLimit_mergeResults hints lq' fun q hq =>
    h q (hperm.mem_iff.1 hq)
  have hunion : allStrings resultsFn lq' = allStrings resultsFn lq := by
    rw [allStrings, toFinset_eq_of_perm _ _ (hperm.flatMap_right _), ← allStrings]
  rw [hall' (by rwa [hperm.length_eq]), hall hlen, hunion, truncateToLimit_some]

theorem mergeResults_eq_two :
    let results : ℕ → LabelResult ℕ Unit Unit := fun q => ⟨[q, 3], [], none⟩
    2 ≤ [1, 2].length ∧
      (mergeResults (some ⟨2⟩) results [1, 2]).strings = (allStrings results [1, 2]).take 2 :=
  ⟨by decide, (mergeResults_eq (fun q => ⟨[q, 3], [], none⟩) ⟨2⟩ [1, 2] (by decide)
    (by simp)).2.2.1 (by decide)⟩

end Prometheus.Storage
