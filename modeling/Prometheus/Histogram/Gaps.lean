import Prometheus.Lib.GoInt
import Prometheus.Histogram.Spans

/-!
# Gaps between buckets

The offset of a span is the length of a gap in the indices. Here it is related to the gaps between
the indices `ps` of populated buckets, which do not depend on how the buckets are divided into
spans.

Of `Clean` spans that start and end with a populated bucket (`Clean.Tight`), each span but the first
is behind a gap between two neighbours in `ps` (`Clean.Tight.neighbours`), and each two neighbours
between which an index is not listed are around such a gap (`Clean.Tight.exists_span`). So the
offsets are `int32`s exactly if the gaps between neighbours are not too long and the first index is
an `int32` (`Clean.Tight.gapsFit_iff`).
-/

namespace Prometheus.Histogram

open List GoInt

/-! ### Populated indices -/

/-- `j` is the next one of `ps` after `i`. -/
def Neighbours (ps : List ℤ) (i j : ℤ) : Prop :=
  i ∈ ps ∧ j ∈ ps ∧ i < j ∧ ∀ k ∈ ps, k ≤ i ∨ j ≤ k

instance (ps : List ℤ) (i j : ℤ) : Decidable (Neighbours ps i j) :=
  inferInstanceAs (Decidable (_ ∧ _ ∧ _ ∧ _))

/-- The first of the indices is an `int32`, and the number of indices between two neighbours is
one. -/
def GapsFit (ps : List ℤ) : Prop :=
  (∀ i ∈ ps, (∀ j ∈ ps, i ≤ j) → IsInt32 i) ∧
    ∀ i ∈ ps, ∀ j ∈ ps, Neighbours ps i j → IsInt32 (j - i - 1)

instance (ps : List ℤ) : Decidable (GapsFit ps) :=
  inferInstanceAs (Decidable (_ ∧ _))

/-! ### Places in spans -/

section Places

variable {idx i : ℤ} {spans as bs : List Span} {s : Span}

/-- The end of the spans is the sum of all offsets and lengths. -/
lemma endIdx_eq (idx : ℤ) (spans : List Span) :
    endIdx idx spans = idx + (spans.map Span.offset).sum + countSpans spans := by
  induction spans generalizing idx with
  | nil => simp
  | cons s ss ih =>
    simp only [endIdx, ih, map_cons, sum_cons, countSpans_cons, Nat.cast_add]
    ring

lemma le_endIdx (idx : ℤ) (h : ∀ s ∈ spans, 0 ≤ s.offset) : idx ≤ endIdx idx spans := by
  induction spans generalizing idx with
  | nil => exact le_refl _
  | cons s ss ih =>
    rw [forall_mem_cons] at h
    have := ih (idx + s.offset + s.length) h.2
    rw [endIdx]
    omega

lemma lt_endIdx (h : NonnegOffsets spans) (hi : i ∈ indices idx spans) :
    i < endIdx idx spans := by
  induction spans generalizing idx with
  | nil => simp at hi
  | cons s ss ih =>
    rw [indices, mem_append, mem_indexRange] at hi
    rw [endIdx]
    rcases hi with hi | hi
    · exact hi.2.trans_le (le_endIdx _ h)
    · refine ih ?_ hi
      cases ss with
      | nil => trivial
      | cons t ts => exact (forall_mem_cons.1 h).2

/-- An index in the spans is in one of them. -/
lemma exists_span_of_mem (hi : i ∈ indices idx spans) :
    ∃ as s bs, spans = as ++ s :: bs ∧ endIdx idx as + s.offset ≤ i ∧
      i < endIdx idx as + s.offset + s.length := by
  induction spans generalizing idx with
  | nil => simp at hi
  | cons s ss ih =>
    rw [indices, mem_append, mem_indexRange] at hi
    rcases hi with hi | hi
    · exact ⟨[], s, ss, rfl, hi⟩
    · obtain ⟨as, t, bs, rfl, ht⟩ := ih hi
      exact ⟨s :: as, t, bs, rfl, ht⟩

lemma mem_indices_span (hle : endIdx idx as + s.offset ≤ i)
    (hlt : i < endIdx idx as + s.offset + s.length) (bs : List Span) :
    i ∈ indices idx (as ++ s :: bs) := by
  rw [indices_append, indices, mem_append, mem_append, mem_indexRange]
  exact .inr (.inl ⟨hle, hlt⟩)

lemma offset_le_of_mem (h : ∀ t ∈ bs, 0 ≤ t.offset) (hi : i ∈ indices idx (s :: bs)) :
    idx + s.offset ≤ i := by
  rw [indices, mem_append, mem_indexRange] at hi
  rcases hi with hi | hi
  · exact hi.1
  · have := (indices_increasing _ h).2 i hi
    omega

/-- The indices before a span and those from its first one on. -/
lemma le_or_le_of_mem (h : NonnegOffsets (as ++ s :: bs)) (hi : i ∈ indices idx (as ++ s :: bs)) :
    i < endIdx idx as ∨ endIdx idx as + s.offset ≤ i := by
  rw [indices_append, mem_append] at hi
  rcases hi with hi | hi
  · refine .inl (lt_endIdx ?_ hi)
    cases as with
    | nil => trivial
    | cons t ts => exact fun u hu => h u (mem_append_left _ hu)
  · refine .inr (offset_le_of_mem ?_ hi)
    cases as with
    | nil => exact h
    | cons t ts => exact fun u hu => h u (by simp [hu])

/-- The index at a place in a span. -/
lemma getElem?_indices (idx : ℤ) {q : ℕ} (hq : q < s.length) :
    (indices idx (as ++ s :: bs))[countSpans as + q]? = some (endIdx idx as + s.offset + q) := by
  rw [indices_append, getElem?_append_right (by simp), length_indices, Nat.add_sub_cancel_left,
    indices, getElem?_append_left (by simpa using hq)]
  simp [indexRange, hq]

/-- The index before a span is in a gap, or before all spans. -/
lemma Clean.notMem_before (h : Clean (as ++ s :: bs)) :
    endIdx 0 as + s.offset - 1 ∉ indices 0 (as ++ s :: bs) := by
  intro hmem
  cases as with
  | nil =>
    have := offset_le_of_mem (fun t ht => (h.gap t ht).le) hmem
    rw [endIdx_nil] at this
    omega
  | cons t ts =>
    have hgap := h.gap s (by simp)
    have := le_or_le_of_mem h.nonnegOffsets hmem
    omega

/-- The index behind a span is in a gap, or behind all spans. -/
lemma Clean.notMem_after (h : Clean (as ++ s :: bs)) :
    endIdx 0 as + s.offset + s.length ∉ indices 0 (as ++ s :: bs) := by
  intro hmem
  have hassoc : as ++ s :: bs = as ++ [s] ++ bs := by simp
  have hend : endIdx 0 (as ++ [s]) = endIdx 0 as + s.offset + s.length := by
    rw [endIdx_append]
    rfl
  rw [hassoc] at h hmem
  cases bs with
  | nil =>
    rw [append_nil] at h hmem
    have := lt_endIdx h.nonnegOffsets hmem
    omega
  | cons t ts =>
    have hgap := h.gap t (by cases as <;> simp)
    have := le_or_le_of_mem h.nonnegOffsets hmem
    omega

end Places

/-! ### Spans around populated buckets -/

/-- Spans that hold the indices `ps` and start and end with one of them. -/
structure Clean.Tight (ps : List ℤ) (spans : List Span) : Prop extends Clean spans where
  subset : ∀ i ∈ ps, i ∈ indices 0 spans
  first : ∀ as s bs, spans = as ++ s :: bs → endIdx 0 as + s.offset ∈ ps
  last : ∀ as s bs, spans = as ++ s :: bs → endIdx 0 (as ++ [s]) - 1 ∈ ps

namespace Clean.Tight

variable {ps : List ℤ} {spans as bs : List Span} {s : Span} {i j : ℤ} (h : Clean.Tight ps spans)

include h

/-- A span that is not the first one is behind a gap between neighbours. -/
lemma neighbours (hspans : spans = as ++ s :: bs) (has : as ≠ []) :
    Neighbours ps (endIdx 0 as - 1) (endIdx 0 as + s.offset) := by
  obtain ⟨ts, t, rfl⟩ := (eq_nil_or_concat' as).resolve_left has
  have hgap : 0 < s.offset := h.gap s (by
    rw [hspans]
    cases ts <;> simp)
  refine ⟨h.last ts t (s :: bs) (by simp [hspans]), h.first _ s bs hspans, by omega, fun k hk => ?_⟩
  have hk := h.subset k hk
  have hoff := h.toClean.nonnegOffsets
  rw [hspans] at hk hoff
  have := le_or_le_of_mem hoff hk
  omega

/-- Neighbours with an index between them that is not listed are around a span's gap. -/
lemma exists_span (hij : Neighbours ps i j) (hk : ∃ k, i < k ∧ k < j ∧ k ∉ indices 0 spans) :
    ∃ as s bs, spans = as ++ s :: bs ∧ as ≠ [] ∧ endIdx 0 as - 1 = i ∧
    endIdx 0 as + s.offset = j := by
  obtain ⟨hi, hj, hlt, hnext⟩ := hij
  obtain ⟨k, hik, hkj, hk⟩ := hk
  obtain ⟨as, t, bs, hspans, hle, hlt'⟩ := exists_span_of_mem (h.subset i hi)
  have hend : endIdx 0 (as ++ [t]) = endIdx 0 as + t.offset + t.length := by
    rw [endIdx_append]
    rfl
  -- The span of `i` ends before `j`, so that `i` is the last index in it.
  have hshort : endIdx 0 (as ++ [t]) ≤ k := by
    by_contra hlong
    rw [hspans] at hk
    exact hk (mem_indices_span (by omega) (by omega) bs)
  have hlast : endIdx 0 (as ++ [t]) - 1 = i := by
    have := hnext _ (h.last as t bs hspans)
    omega
  have hoff := h.toClean.nonnegOffsets
  have hspans' : spans = as ++ [t] ++ bs := by simp [hspans]
  have hjmem := h.subset j hj
  cases bs with
  | nil =>
    rw [hspans', append_nil] at hjmem hoff
    have := lt_endIdx hoff hjmem
    omega
  | cons s bs =>
    refine ⟨as ++ [t], s, bs, hspans', by simp, hlast, ?_⟩
    have hgap : 0 < s.offset := h.gap s (by
      rw [hspans]
      cases as <;> simp)
    have hfirst := hnext _ (h.first (as ++ [t]) s bs hspans')
    rw [hspans'] at hjmem hoff
    have := le_or_le_of_mem hoff hjmem
    omega

/-- **The offsets are `int32`s** exactly if the gaps are short enough. Neighbours that are in one
span are not far from each other. -/
lemma gapsFit_iff (hnear : ∀ i j, Neighbours ps i j → (∀ k, i < k → k < j → k ∈ indices 0 spans) →
    IsInt32 (j - i - 1)) : GapsFit ps ↔ ∀ s ∈ spans, IsInt32 s.offset := by
  constructor
  · rintro ⟨hleast, hgaps⟩ s hs
    obtain ⟨as, bs, rfl⟩ := append_of_mem hs
    obtain rfl | has := eq_or_ne as []
    · have hfirst := h.first [] s bs rfl
      rw [endIdx_nil, zero_add] at hfirst
      refine hleast _ hfirst fun j hj => ?_
      have := offset_le_of_mem (fun t ht => (h.gap t ht).le) (h.subset j hj)
      omega
    · have hij := h.neighbours rfl has
      have := hgaps _ hij.1 _ hij.2.1 hij
      rwa [show endIdx 0 as + s.offset - (endIdx 0 as - 1) - 1 = s.offset by ring] at this
  · intro hoff
    refine ⟨fun i hi hmin => ?_, fun i _ j _ hij => ?_⟩
    · cases spans with
      | nil => exact absurd (h.subset i hi) (by simp)
      | cons s ss =>
        have hfirst := h.first [] s ss rfl
        rw [endIdx_nil, zero_add] at hfirst
        have hle := hmin _ hfirst
        have hge := offset_le_of_mem (fun t ht => (h.gap t ht).le) (h.subset i hi)
        rw [zero_add] at hge
        rw [le_antisymm hle hge]
        exact hoff s mem_cons_self
    · by_cases hall : ∀ k, i < k → k < j → k ∈ indices 0 spans
      · exact hnear i j hij hall
      · simp only [not_forall] at hall
        obtain ⟨k, hik, hkj, hk⟩ := hall
        obtain ⟨as, s, bs, rfl, -, rfl, rfl⟩ := h.exists_span hij ⟨k, hik, hkj, hk⟩
        rw [show endIdx 0 as + s.offset - (endIdx 0 as - 1) - 1 = s.offset by ring]
        exact hoff s (by simp)

end Clean.Tight

end Prometheus.Histogram
