import Mathlib

/-!
# Spans of buckets

The buckets of a histogram are a list of counts, and spans that say which indices they are for. A
list of spans stands for the list of its `indices`; with the counts, for a list of `entries`. The
code edits spans and counts in place. Its edits are read as edits of these lists.
-/

namespace Prometheus.Histogram

open List

/-- A continuous sequence of buckets. The code has an `int32` and a `uint32` here: where it computes
an offset, the sum is wrapped. -/
@[ext] structure Span where
  /-- Gap to the previous span (always positive), or starting index for the 1st span (which can be
  negative). -/
  offset : ℤ
  /-- Length of the span. -/
  length : ℕ
deriving DecidableEq, Repr

/-- `n` indices from `i` on. -/
def indexRange (i : ℤ) (n : ℕ) : List ℤ :=
  (List.range n).map fun k : ℕ => i + k

/-- The indices of the buckets, where the index before the first span is `idx`. -/
def indices : ℤ → List Span → List ℤ
  | _, [] => []
  | idx, s :: ss =>
    indexRange (idx + s.offset) s.length ++ indices (idx + s.offset + s.length) ss

/-- The index after the last span. -/
def endIdx : ℤ → List Span → ℤ
  | idx, [] => idx
  | idx, s :: ss => endIdx (idx + s.offset + s.length) ss

/-- The number of buckets. -/
def countSpans (spans : List Span) : ℕ :=
  (spans.map Span.length).sum

/-- What `checkHistogramSpans` checks: only the first offset may be negative. -/
def NonnegOffsets : List Span → Prop
  | [] => True
  | _ :: ss => ∀ s ∈ ss, 0 ≤ s.offset

/-! ### Indices -/

variable (i : ℤ) (n : ℕ)

@[simp] lemma indexRange_zero : indexRange i 0 = [] := rfl

@[simp] lemma length_indexRange : (indexRange i n).length = n := by
  simp [indexRange]

lemma mem_indexRange {i j : ℤ} {n : ℕ} : j ∈ indexRange i n ↔ i ≤ j ∧ j < i + n := by
  simp only [indexRange, mem_map, mem_range]
  constructor
  · rintro ⟨k, hk, rfl⟩
    omega
  · rintro ⟨hle, hlt⟩
    exact ⟨(j - i).toNat, by omega, by omega⟩

lemma indexRange_add (m n : ℕ) : indexRange i (m + n) = indexRange i m ++ indexRange (i + m) n := by
  simp only [indexRange, range_add, map_append, map_map]
  congr 1
  refine map_congr_left fun k _ => ?_
  simp only [Function.comp_apply, Nat.cast_add]
  ring

lemma indexRange_succ : indexRange i (n + 1) = indexRange i n ++ [i + n] := by
  rw [indexRange_add]
  simp [indexRange]

lemma indexRange_cons : indexRange i (n + 1) = i :: indexRange (i + 1) n := by
  rw [Nat.add_comm, indexRange_add]
  simp [indexRange]

lemma pairwise_indexRange : (indexRange i n).Pairwise (· < ·) := by
  refine pairwise_map.2 (pairwise_lt_range.imp fun h => ?_)
  omega

variable (idx : ℤ) (as bs : List Span)

@[simp] lemma indices_nil : indices idx [] = [] := rfl

@[simp] lemma endIdx_nil : endIdx idx [] = idx := rfl

@[simp] lemma countSpans_nil : countSpans [] = 0 := rfl

@[simp] lemma countSpans_cons (s : Span) (ss : List Span) :
    countSpans (s :: ss) = s.length + countSpans ss := by
  simp [countSpans]

@[simp] lemma countSpans_append : countSpans (as ++ bs) = countSpans as + countSpans bs := by
  simp [countSpans]

@[simp] lemma length_indices (spans : List Span) :
    (indices idx spans).length = countSpans spans := by
  induction spans generalizing idx with
  | nil => rfl
  | cons s ss ih => simp [indices, ih]

lemma indices_append : indices idx (as ++ bs) = indices idx as ++ indices (endIdx idx as) bs := by
  induction as generalizing idx with
  | nil => rfl
  | cons s ss ih => simp [indices, endIdx, ih]

lemma endIdx_append : endIdx idx (as ++ bs) = endIdx (endIdx idx as) bs := by
  induction as generalizing idx with
  | nil => rfl
  | cons s ss ih => simp [endIdx, ih]

variable {s : Span}

lemma indices_zero_length (hs : s.length = 0) (ss : List Span) :
    indices idx (s :: ss) = indices (idx + s.offset) ss := by
  simp [indices, hs]

variable {spans : List Span}

/-- The indices of increasing spans increase, from the end of what came before on. -/
lemma indices_increasing (h : ∀ s ∈ spans, 0 ≤ s.offset) :
    (indices idx spans).Pairwise (· < ·) ∧ ∀ i ∈ indices idx spans, idx ≤ i := by
  induction spans generalizing idx with
  | nil => simp
  | cons s ss ih =>
    obtain ⟨hsorted, hge⟩ := ih (idx + s.offset + s.length) fun t ht => h t (by simp [ht])
    have hs := h s (by simp)
    refine ⟨pairwise_append.2 ⟨pairwise_indexRange _ _, hsorted, fun i hi j hj => ?_⟩,
      fun i hi => ?_⟩
    · have := mem_indexRange.1 hi
      have := hge j hj
      omega
    rcases mem_append.1 hi with hi | hi
    · have := mem_indexRange.1 hi
      omega
    · have := hge i hi
      omega

lemma pairwise_indices (h : NonnegOffsets spans) : (indices idx spans).Pairwise (· < ·) := by
  cases spans with
  | nil => exact List.Pairwise.nil
  | cons s ss =>
    obtain ⟨hsorted, hge⟩ := indices_increasing (idx + s.offset + s.length) h
    refine pairwise_append.2 ⟨pairwise_indexRange _ _, hsorted, fun i hi j hj => ?_⟩
    have := mem_indexRange.1 hi
    have := hge j hj
    omega

/-- Spans as `compactBuckets` leaves them: no span without buckets, and a gap between any two. -/
structure Clean (spans : List Span) : Prop where
  pos : ∀ s ∈ spans, 0 < s.length
  gap : ∀ s ∈ spans.tail, 0 < s.offset

lemma Clean.nonnegOffsets (h : Clean spans) : NonnegOffsets spans := by
  cases spans with
  | nil => trivial
  | cons s ss => exact fun t ht => (h.gap t ht).le

lemma Clean.of_cons (h : Clean (s :: spans)) : Clean spans :=
  ⟨(forall_mem_cons.1 h.pos).2, fun t ht => h.gap t (mem_of_mem_tail ht)⟩

lemma head?_indices (hs : 0 < s.length) (ss : List Span) :
    (indices idx (s :: ss)).head? = some (idx + s.offset) := by
  obtain ⟨n, hn⟩ := Nat.exists_eq_succ_of_ne_zero hs.ne'
  simp [indices, hn, indexRange_cons]

/-- The next index is not in spans with a gap before them. -/
lemma notMem_indices (h : ∀ s ∈ spans, 0 < s.offset) : idx ∉ indices idx spans := by
  cases spans with
  | nil => simp
  | cons s ss =>
    rw [forall_mem_cons] at h
    rw [indices, mem_append, mem_indexRange]
    rintro (hin | hin)
    · omega
    · have := (indices_increasing _ fun t ht => (h.2 t ht).le).2 idx hin
      omega

lemma length_le_of_indices_eq {t : Span} {ss ts : List Span} (hoff : s.offset = t.offset)
    (hss : ∀ u ∈ ss, 0 < u.offset) (h : indices idx (s :: ss) = indices idx (t :: ts)) :
    t.length ≤ s.length := by
  by_contra hlt
  have hmem : idx + s.offset + s.length ∈ indices idx (s :: ss) := by
    rw [h, indices, mem_append, mem_indexRange]
    omega
  rw [indices, mem_append, mem_indexRange] at hmem
  exact hmem.elim (by omega) (notMem_indices _ hss)

/-- **The clean spans of given indices are unique.** -/
lemma Clean.eq_of_indices_eq {as bs : List Span} (has : Clean as) (hbs : Clean bs)
    (h : indices idx as = indices idx bs) : as = bs := by
  induction as generalizing idx bs with
  | nil =>
    cases bs with
    | nil => rfl
    | cons t ts =>
      have ht := head?_indices idx (hbs.pos t mem_cons_self) ts
      simp [← h] at ht
  | cons s ss ih =>
    have hs := head?_indices idx (has.pos s mem_cons_self) ss
    cases bs with
    | nil => simp [h] at hs
    | cons t ts =>
      have hoff : t.offset = s.offset := by
        simpa [h, head?_indices idx (hbs.pos t mem_cons_self)] using hs
      have hlen : t.length = s.length := le_antisymm
        (length_le_of_indices_eq idx hoff.symm has.gap h)
        (length_le_of_indices_eq idx hoff hbs.gap h.symm)
      obtain rfl : t = s := Span.ext hoff hlen
      rw [ih _ has.of_cons hbs.of_cons (append_cancel_left h)]

/-! ### Entries -/

variable {C : Type}

/-- The buckets with their indices. -/
def entries (spans : List Span) (buckets : List C) : List (ℤ × C) :=
  (indices 0 spans).zip buckets

/-- Spans and counts are of the same number of buckets, and the indices increase. -/
structure Agree (spans : List Span) (buckets : List C) : Prop where
  length_eq : countSpans spans = buckets.length
  offsets : NonnegOffsets spans

lemma pairwise_zip_fst {is : List ℤ} (h : is.Pairwise (· < ·)) (buckets : List C) :
    (is.zip buckets).Pairwise fun a b => a.1 < b.1 := by
  refine pairwise_iff_getElem.2 fun i j _ _ hij => ?_
  simpa using pairwise_iff_getElem.1 h i j _ _ hij

lemma pairwise_entries (h : NonnegOffsets spans) (buckets : List C) :
    (entries spans buckets).Pairwise fun a b => a.1 < b.1 :=
  pairwise_zip_fst (pairwise_indices 0 h) buckets

variable {buckets : List C}

lemma Agree.map_fst_entries (h : Agree spans buckets) :
    (entries spans buckets).map Prod.fst = indices 0 spans := by
  rw [entries, map_fst_zip]
  rw [length_indices, h.length_eq]

lemma Agree.map_snd_entries (h : Agree spans buckets) :
    (entries spans buckets).map Prod.snd = buckets := by
  rw [entries, map_snd_zip]
  simp [h.length_eq]

/-- The counts of buckets that come after one with the count `abs`. -/
def absolute [Add C] (deltaBuckets : Bool) : C → List C → List C
  | _, [] => []
  | abs, b :: bs =>
    let abs := if deltaBuckets then abs + b else b
    abs :: absolute deltaBuckets abs bs

/-- The buckets that are not empty. -/
def populated [Zero C] [DecidableEq C] (es : List (ℤ × C)) : List (ℤ × C) :=
  es.filter fun e => e.2 ≠ 0

/-- The counts of the buckets with an index in `p`. -/
def sumOver [AddCommMonoid C] (p : ℤ → Bool) (es : List (ℤ × C)) : C :=
  ((es.filter fun e => p e.1).map Prod.snd).sum

section Sums

variable [AddCommMonoid C] (p : ℤ → Bool) (es : List (ℤ × C))

@[simp] lemma sumOver_nil : sumOver p ([] : List (ℤ × C)) = 0 := rfl

lemma sumOver_cons (e : ℤ × C) (es : List (ℤ × C)) :
    sumOver p (e :: es) = (if p e.1 then e.2 else 0) + sumOver p es := by
  by_cases h : p e.1 <;> simp [sumOver, h]

lemma sumOver_append (as bs : List (ℤ × C)) :
    sumOver p (as ++ bs) = sumOver p as + sumOver p bs := by
  simp [sumOver]

lemma sumOver_populated [DecidableEq C] : sumOver p (populated es) = sumOver p es := by
  induction es with
  | nil => rfl
  | cons e es ih =>
    rw [sumOver_cons, ← ih]
    by_cases h : e.2 = 0
    · simp [populated, h]
    · rw [show populated (e :: es) = e :: populated es by simp [populated, h], sumOver_cons]

lemma sumOver_true : sumOver (fun _ => true) es = (es.map Prod.snd).sum := by
  simp [sumOver]

lemma sum_populated [DecidableEq C] :
    ((populated es).map Prod.snd).sum = (es.map Prod.snd).sum := by
  rw [← sumOver_true, sumOver_populated, sumOver_true]

/-- The counts are those in `p` and those not in `p`. -/
lemma sumOver_add_not : sumOver p es + sumOver (fun i => !p i) es = (es.map Prod.snd).sum := by
  induction es with
  | nil => simp
  | cons e es ih =>
    rw [sumOver_cons, sumOver_cons, map_cons, sum_cons, ← ih]
    by_cases h : p e.1 <;> simp [h] <;> abel

end Sums

end Prometheus.Histogram
