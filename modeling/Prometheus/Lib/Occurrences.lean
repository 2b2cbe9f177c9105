import Mathlib

/-!
# The occurrences of a key in a list

`positions k ks a` are the positions from `a` on at which the key `k` stands in the list `ks`, in
order. A list that grows at its end and of which more and more is forgotten at the front has two
steps: a key is added (`positions_concat`), and the window starts one position later
(`positions_succ`). A linked list through the occurrences of a key has the first of them as its
head (`first`), the last as its tail (`last`), and leads from each to the first one after it.
-/

namespace Occurrences

open List

variable {K : Type*} [DecidableEq K] {k x : K} {ks : List K} {a v w : ℕ}

variable (k ks a)

def positions : List ℕ :=
  (List.range' a (ks.length - a)).filter fun v => ks[v]? = some k

def first : Option ℕ :=
  (positions k ks a).head?

def last : Option ℕ :=
  (positions k ks a).getLast?

variable {k ks a}

lemma mem_positions : v ∈ positions k ks a ↔ a ≤ v ∧ ks[v]? = some k := by
  simp only [positions, mem_filter, mem_range'_1, decide_eq_true_eq]
  constructor
  · rintro ⟨⟨hle, -⟩, hv⟩
    exact ⟨hle, hv⟩
  · rintro ⟨hle, hv⟩
    obtain ⟨hlt, -⟩ := List.getElem?_eq_some_iff.1 hv
    exact ⟨⟨hle, by omega⟩, hv⟩

theorem positions_concat (h : a ≤ ks.length) :
    positions k (ks ++ [x]) a = positions k ks a ++ if x = k then [ks.length] else [] := by
  have hrange : range' a ((ks ++ [x]).length - a) = range' a (ks.length - a) ++ [ks.length] := by
    rw [length_append, length_singleton, Nat.succ_sub h, range'_1_concat, Nat.add_sub_cancel' h]
  have hold : (range' a (ks.length - a)).filter (fun v => (ks ++ [x])[v]? = some k) =
      positions k ks a := by
    refine filter_congr fun v hv => ?_
    have := (mem_range'_1.1 hv).2
    rw [getElem?_append_left (by omega)]
  rw [positions, hrange, filter_append, hold]
  by_cases hx : x = k <;> simp [hx]

theorem positions_succ :
    positions k ks a = (if ks[a]? = some k then [a] else []) ++ positions k ks (a + 1) := by
  by_cases ha : a < ks.length
  · have hrange : range' a (ks.length - a) = a :: range' (a + 1) (ks.length - (a + 1)) := by
      rw [← range'_succ]
      congr 1
      omega
    rw [positions, hrange, filter_cons]
    split_ifs with h₁ h₂ h₂
    · rfl
    · simp_all
    · simp_all
    · rfl
  · have hnil : ∀ {b}, a ≤ b → positions k ks b = [] := by
      intro b hb
      rw [positions, Nat.sub_eq_zero_of_le (by omega)]
      rfl
    rw [hnil le_rfl, hnil (Nat.le_succ a), getElem?_eq_none (by omega)]
    rfl

lemma pairwise_positions : (positions k ks a).Pairwise (· < ·) :=
  List.Pairwise.filter _ pairwise_lt_range'

/-- After the first occurrence come those from the next position on. -/
lemma positions_eq_cons {rest : List ℕ} (h : positions k ks a = v :: rest) :
    rest = positions k ks (v + 1) := by
  have hv : a ≤ v ∧ ks[v]? = some k := by
    rw [← mem_positions, h]
    exact mem_cons_self
  -- Positions below `v` hold other keys, and can be skipped one by one.
  have hskip : ∀ m, a + m ≤ v → positions k ks (a + m) = v :: rest := by
    intro m hm
    induction m with
    | zero => exact h
    | succ m ih =>
      have hprev := ih (by omega)
      rw [positions_succ] at hprev
      split_ifs at hprev
      · simp only [singleton_append, cons.injEq] at hprev
        omega
      · exact hprev
  have hcons := hskip (v - a) (by omega)
  rw [Nat.add_sub_cancel' hv.1, positions_succ, if_pos hv.2, singleton_append, cons.injEq] at hcons
  exact hcons.2.symm

lemma first_eq_some (h : first k ks a = some v) :
    positions k ks a = v :: positions k ks (v + 1) := by
  obtain ⟨rest, hrest⟩ := head?_eq_some_iff.1 h
  rw [hrest, positions_eq_cons hrest]

lemma mem_of_first (h : first k ks a = some v) : a ≤ v ∧ ks[v]? = some k := by
  rw [← mem_positions, first_eq_some h]
  exact mem_cons_self

lemma mem_of_last (h : last k ks a = some v) : a ≤ v ∧ ks[v]? = some k :=
  mem_positions.1 (mem_of_getLast? h)

lemma first_eq_none : first k ks a = none ↔ positions k ks a = [] :=
  head?_eq_none_iff

/-- There is nothing after the last occurrence, and something after the others. -/
lemma first_succ_eq_none (hlast : last k ks a = some w) (hv : v ∈ positions k ks a) :
    first k ks (v + 1) = none ↔ v = w := by
  have hwmem := mem_of_getLast? hlast
  have hle : v ≤ w := by
    obtain ⟨init, hinit⟩ := getLast?_eq_some_iff.1 hlast
    have hp := @pairwise_positions _ _ k ks a
    rw [hinit] at hp hv
    obtain hv | hv := mem_append.1 hv
    · exact ((pairwise_append.1 hp).2.2 v hv w (mem_singleton_self w)).le
    · exact (mem_singleton.1 hv).le
  rw [first_eq_none]
  constructor
  · intro hnil
    by_contra hne
    have hw : w ∈ positions k ks (v + 1) :=
      mem_positions.2 ⟨by omega, (mem_positions.1 hwmem).2⟩
    rw [hnil] at hw
    exact not_mem_nil hw
  · rintro rfl
    rw [eq_nil_iff_forall_not_mem]
    intro u hu
    obtain ⟨hvu, hu⟩ := mem_positions.1 hu
    -- A later occurrence would come after the last one.
    obtain ⟨init, hinit⟩ := getLast?_eq_some_iff.1 hlast
    have hmem : u ∈ positions k ks a :=
      mem_positions.2 ⟨(mem_positions.1 hv).1.trans (by omega), hu⟩
    have hp := @pairwise_positions _ _ k ks a
    rw [hinit] at hp hmem
    obtain hmem | hmem := mem_append.1 hmem
    · have := (pairwise_append.1 hp).2.2 u hmem v (mem_singleton_self v)
      omega
    · have := mem_singleton.1 hmem
      omega

variable (h : a ≤ ks.length)
include h

lemma first_concat :
    first k (ks ++ [x]) a = (first k ks a).or (if x = k then some ks.length else none) := by
  rw [first, positions_concat h, head?_append, first]
  split_ifs <;> rfl

lemma last_concat_self : last k (ks ++ [k]) a = some ks.length := by
  rw [last, positions_concat h, if_pos rfl, getLast?_concat]

lemma last_concat_of_ne (hx : x ≠ k) : last k (ks ++ [x]) a = last k ks a := by
  rw [last, positions_concat h, if_neg hx, append_nil, last]

omit h

lemma first_succ_of_ne (h : ks[a]? ≠ some k) : first k ks (a + 1) = first k ks a := by
  rw [first, first, @positions_succ _ _ k ks a, if_neg h, nil_append]

lemma last_succ (h : positions k ks (a + 1) ≠ []) : last k ks (a + 1) = last k ks a := by
  rw [last, last, @positions_succ _ _ k ks a, getLast?_append_of_ne_nil _ h]

/-- The elements at the positions of a key are those with the key. -/
lemma filterMap_positions {α : Type*} (key : α → K) (h : List α) (a : ℕ) :
    (positions k (h.map key) a).filterMap (h[·]?) = (h.drop a).filter fun x => key x = k := by
  obtain ⟨n, hn⟩ : ∃ n, n = h.length - a := ⟨_, rfl⟩
  induction n generalizing a with
  | zero =>
    rw [drop_eq_nil_of_le (by omega), positions, length_map, ← hn]
    rfl
  | succ n ih =>
    have ha : a < h.length := by omega
    rw [positions_succ, filterMap_append, ih (a + 1) (by omega), drop_eq_getElem_cons ha,
      filter_cons, getElem?_map, getElem?_eq_getElem ha]
    by_cases hk : key h[a] = k <;> simp [hk, ha]

end Occurrences
