import Prometheus.Histogram.FloatHistogram

/-!
# Reconciling zero buckets

What `reconcileZeroBuckets` does, in terms of thresholds as points of the order of `float64`s.

The loops end for any histograms, even if the `int32`s of their indices wrap around. A threshold
only ever moves to the end of a populated bucket that is above it (`Moved`), and there are only so
many of these. The other histogram stays as it is, so that the turns are counted by its buckets
(`reconcileLoop_ends`). Only thresholds that are not numbers stay where they are
(`reconcileZeroBuckets_ends_iff`).

Where the loops end up is shown for indices that do not wrap around (`InBounds`). `Inside es t`: the
threshold `t` is within a populated bucket. A threshold is `Clear` for a histogram if it is not, or
if it is the histogram's own, which is not looked at. The loop ends with the least threshold that is
clear for both histograms (`reconcileZeroBuckets_spec`). The receiver then has no populated bucket
below it, with no observation lost; and the zero count of the other histogram is with all buckets
that start below it, unless the threshold is its own.
-/

namespace Prometheus.Histogram

open Float64 List Bool GoInt

/-! ### Thresholds -/

/-- A `float64` that can be compared with others. `Validate` does not look at thresholds. -/
structure IsThreshold (x : BitVec 64) : Prop where
  not_isNaN : isNaN x = false

section Comparisons

variable {x y : BitVec 64} (hx : IsThreshold x) (hy : IsThreshold y)

include hx hy

lemma le_iff : le x y = true ↔ ord x ≤ ord y := by
  simp [le, hx.not_isNaN, hy.not_isNaN]

lemma lt_iff : lt x y = true ↔ ord x < ord y := by
  simp [lt, hx.not_isNaN, hy.not_isNaN]

lemma eq_iff : eq x y = true ↔ ord x = ord y := by
  simp [Float64.eq, hx.not_isNaN, hy.not_isNaN]

lemma lt_eq_false (h : ord y ≤ ord x) : lt x y = false := by
  rw [← not_eq_true, lt_iff hx hy]
  exact h.not_gt

lemma eq_eq_false (h : ord x ≠ ord y) : eq x y = false := by
  rw [← not_eq_true, eq_iff hx hy]
  exact h

lemma le_neg_iff : le (neg x) (neg y) = true ↔ ord y ≤ ord x := by
  simp [le, isNaN_neg, hx.not_isNaN, hy.not_isNaN, ord_neg]

lemma lt_neg_iff : lt (neg x) (neg y) = true ↔ ord y < ord x := by
  simp [lt, isNaN_neg, hx.not_isNaN, hy.not_isNaN, ord_neg]

end Comparisons

/-- The place of the upper bound of a bucket in the order. -/
def upper (schema i : ℤ) : ℤ :=
  ord (getBoundExponential i schema)

section Buckets

variable {schema : ℤ} (hs : isExponentialSchema schema = true)

include hs

lemma isThreshold_bound (i : ℤ) : IsThreshold (getBoundExponential i schema) :=
  ⟨(getBoundExponential_isNonneg hs i).not_isNaN⟩

lemma upper_mono : Monotone (upper schema) := by
  intro i j hij
  rw [upper, upper, (getBoundExponential_isNonneg hs i).ord_eq,
    (getBoundExponential_isNonneg hs j).ord_eq]
  exact_mod_cast toNat_getBoundExponential_mono hs hij

end Buckets

/-- The threshold `t` is within a populated bucket. -/
def Inside (schema : ℤ) (es : List (ℤ × ℚ)) (t : ℤ) : Prop :=
  ∃ e ∈ es, e.2 ≠ 0 ∧ upper schema (e.1 - 1) < t ∧ t < upper schema e.1

/-- The buckets that start below `t`. -/
def below (schema : ℤ) (es : List (ℤ × ℚ)) (t : ℤ) : ℚ :=
  sumOver (fun i => upper schema (i - 1) < t) es

variable {T : BitVec 64} {es' : List (ℤ × ℚ)}

section Lists

variable {schema : ℤ} {es : List (ℤ × ℚ)} {e : ℤ × ℚ} {t t' : ℤ}

lemma inside_cons : Inside schema (e :: es) t ↔
    (e.2 ≠ 0 ∧ upper schema (e.1 - 1) < t ∧ t < upper schema e.1) ∨ Inside schema es t := by
  simp [Inside]

lemma below_cons : below schema (e :: es) t =
    (if upper schema (e.1 - 1) < t then e.2 else 0) + below schema es t := by
  simp [below, sumOver_cons]

variable (h : ∀ e ∈ es, t ≤ upper schema (e.1 - 1))
include h

/-- Buckets that start at `t` or above it. -/
lemma below_eq_zero : below schema es t = 0 := by
  rw [below, sumOver, filter_eq_nil_iff.2]
  · rfl
  · intro e he
    simpa using h e he

lemma not_inside_of_le : ¬Inside schema es t :=
  fun ⟨e, he, _, hlt, _⟩ => absurd (h e he) hlt.not_ge

omit h

lemma inside_append : Inside schema (es ++ es') t ↔ Inside schema es t ∨ Inside schema es' t := by
  simp [Inside, or_and_right, exists_or]

lemma below_append : below schema (es ++ es') t = below schema es t + below schema es' t :=
  sumOver_append _ _ _

/-- The number of populated buckets that end above `t`. -/
def above (schema : ℤ) (es : List (ℤ × ℚ)) (t : ℤ) : ℕ :=
  (populated es).countP fun e => t < upper schema e.1

lemma above_le_length : above schema es t ≤ es.length :=
  countP_le_length.trans (length_filter_le _ _)

lemma above_anti (h : t ≤ t') : above schema es t' ≤ above schema es t :=
  countP_mono_left fun e _ he => by
    simp only [decide_eq_true_eq] at he ⊢
    exact h.trans_lt he

/-- A threshold that has moved beyond the end of a populated bucket. -/
lemma above_lt {e : ℤ × ℚ} (he : e ∈ es) (hne : e.2 ≠ 0) (hlt : t < upper schema e.1)
    (hle : upper schema e.1 ≤ t') : above schema es t' < above schema es t := by
  have htt := hlt.le.trans hle
  obtain ⟨as, bs, rfl⟩ := append_of_mem he
  have has : above schema as t' ≤ above schema as t := above_anti htt
  have hbs : above schema bs t' ≤ above schema bs t := above_anti htt
  have hpop : populated (as ++ e :: bs) = populated as ++ e :: populated bs := by
    simp [populated, hne]
  simp only [above, hpop, countP_append, countP_cons, decide_eq_true hlt,
    decide_eq_false (not_lt.2 hle)] at has hbs ⊢
  simp only [if_true, false_eq_true, if_false]
  omega

/-- The threshold `t` has stayed, or has moved to the end of a populated bucket above it. -/
def Moved (schema : ℤ) (es : List (ℤ × ℚ)) (t t' : ℤ) : Prop :=
  t' = t ∨ ∃ e ∈ es, e.2 ≠ 0 ∧ t < upper schema e.1 ∧ t' = upper schema e.1

lemma Moved.le (h : Moved schema es t t') : t ≤ t' := by
  rcases h with rfl | ⟨e, -, -, hlt, rfl⟩
  · exact le_refl _
  · exact hlt.le

lemma Moved.above_lt (h : Moved schema es t t') (hlt : t < t') :
    above schema es t' < above schema es t := by
  rcases h with rfl | ⟨e, he, hne, hlt', rfl⟩
  · exact absurd hlt (lt_irrefl _)
  · exact Histogram.above_lt he hne hlt' (le_refl _)

lemma Moved.trans {t'' : ℤ} (h : Moved schema es t t') (h' : Moved schema es t' t'') :
    Moved schema es t t'' := by
  rcases h' with rfl | ⟨e, he, hne, hlt, rfl⟩
  · exact h
  · exact .inr ⟨e, he, hne, h.le.trans_lt hlt, rfl⟩

lemma Moved.mono (h : Moved schema es t t') (hsub : ∀ e ∈ es, e ∈ es') : Moved schema es' t t' :=
  h.imp id fun ⟨e, he, hmoved⟩ => ⟨e, hsub e he, hmoved⟩

lemma inside_populated : Inside schema (populated es) t ↔ Inside schema es t := by
  constructor
  · rintro ⟨e, he, h⟩
    exact ⟨e, (mem_filter.1 he).1, h⟩
  · rintro ⟨e, he, hne, h⟩
    exact ⟨e, mem_filter.2 ⟨he, by simpa using hne⟩, hne, h⟩

lemma below_populated : below schema (populated es) t = below schema es t :=
  sumOver_populated _ _

/-- The buckets that start at `t` or above it. -/
def atOrAbove (schema : ℤ) (es : List (ℤ × ℚ)) (t : ℤ) : List (ℤ × ℚ) :=
  es.filter fun e => t ≤ upper schema (e.1 - 1)

lemma sum_atOrAbove : below schema es t + ((atOrAbove schema es t).map Prod.snd).sum =
    (es.map Prod.snd).sum := by
  have := sumOver_add_not (fun i => upper schema (i - 1) < t) es
  simp only [← decide_not, not_lt] at this
  exact this

/-- What is below a threshold that is in no bucket is in no threshold above it either. -/
lemma inside_atOrAbove (hclear : ¬Inside schema es t) (h : t ≤ t') :
    Inside schema (atOrAbove schema es t) t' ↔ Inside schema es t' := by
  constructor
  · rintro ⟨e, he, hin⟩
    exact ⟨e, (mem_filter.1 he).1, hin⟩
  · rintro ⟨e, he, hne, hlower, hupper⟩
    refine ⟨e, mem_filter.2 ⟨he, ?_⟩, hne, hlower, hupper⟩
    have : ¬upper schema (e.1 - 1) < t := fun hlt =>
      hclear ⟨e, he, hne, hlt, h.trans_lt hupper⟩
    simpa using this

variable (hs : isExponentialSchema schema = true)

include hs

/-- The buckets after one start at its end or above it. -/
lemma upper_le_lower_of_pairwise (h : (e :: es).Pairwise fun a b => a.1 < b.1) :
    ∀ e' ∈ es, upper schema e.1 ≤ upper schema (e'.1 - 1) := by
  intro e' he'
  have := rel_of_pairwise_cons h he'
  exact upper_mono hs (by omega)

/-! ### Thresholds move upwards -/

open FloatHistogram in
lemma countPositive_moved (es : List (ℤ × ℚ)) (count : ℚ) (hT : IsThreshold T) :
    ∃ count' T', countPositive schema es count T = (count', T') ∧ IsThreshold T' ∧
      Moved schema es (ord T) (ord T') := by
  induction es generalizing count with
  | nil => exact ⟨count, T, rfl, hT, .inl rfl⟩
  | cons e es ih =>
    obtain ⟨i, c⟩ := e
    have hupper := isThreshold_bound hs i
    simp only [countPositive]
    split_ifs with hle hlt hc
    · exact ⟨count, T, rfl, hT, .inl rfl⟩
    · exact ⟨count + c, _, rfl, hupper,
        .inr ⟨(i, c), mem_cons_self, hc, (lt_iff hT hupper).1 hlt, rfl⟩⟩
    · exact ⟨count + c, T, rfl, hT, .inl rfl⟩
    · obtain ⟨count', T', heq, hT', hmoved⟩ := ih (count + c)
      exact ⟨count', T', heq, hT', hmoved.mono fun e => mem_cons_of_mem _⟩

open FloatHistogram in
/-- The loop over the negative buckets is redone if it has moved the threshold. -/
lemma countNegative_moved (es : List (ℤ × ℚ)) (count : ℚ) (hT : IsThreshold T) :
    ∃ redo count' T', countNegative schema es count T = (redo, count', T') ∧ IsThreshold T' ∧
      Moved schema es (ord T) (ord T') ∧ (redo = true → ord T < ord T') := by
  induction es generalizing count with
  | nil => exact ⟨false, count, T, rfl, hT, .inl rfl, by simp⟩
  | cons e es ih =>
    obtain ⟨i, c⟩ := e
    have hupper := isThreshold_bound hs i
    simp only [countNegative]
    split_ifs with hle hlt hc
    · exact ⟨false, count, T, rfl, hT, .inl rfl, by simp⟩
    · have hlt' : ord T < upper schema i := (lt_neg_iff hupper hT).1 hlt
      refine ⟨true, count + c, _, rfl, ?_⟩
      rw [neg_involutive]
      exact ⟨hupper, .inr ⟨(i, c), mem_cons_self, hc, hlt', rfl⟩, fun _ => hlt'⟩
    · exact ⟨false, count + c, T, rfl, hT, .inl rfl, by simp⟩
    · obtain ⟨redo, count', T', heq, hT', hmoved, hredo⟩ := ih (count + c)
      exact ⟨redo, count', T', heq, hT', hmoved.mono fun e => mem_cons_of_mem _, hredo⟩

/-! ### Counting the buckets below a threshold -/

/-- A threshold `t'` found for the buckets `es` from `t` on: the first one that is not within a
populated bucket, with the buckets below it counted. -/
structure Counted (schema : ℤ) (es : List (ℤ × ℚ)) (count : ℚ) (t : ℤ) (count' : ℚ) (t' : ℤ) :
    Prop where
  le : t ≤ t'
  clear : ¬Inside schema es t'
  count_eq : count' = count + below schema es t'
  least : ∀ u, t ≤ u → ¬Inside schema es u → t' ≤ u

open FloatHistogram in
lemma countPositive_spec (hsorted : es.Pairwise fun a b => a.1 < b.1)
    (hint : ∀ e ∈ es, IsInt32 (e.1 - 1)) (count : ℚ) (hT : IsThreshold T) :
    ∃ count' T', countPositive schema es count T = (count', T') ∧ IsThreshold T' ∧
      Counted schema es count (ord T) count' (ord T') := by
  induction es generalizing count with
  | nil => exact ⟨count, T, rfl, hT, le_refl _, by simp [Inside], by simp [below], fun u h _ => h⟩
  | cons e es ih =>
    obtain ⟨i, c⟩ := e
    rw [forall_mem_cons] at hint
    have hexact : int32 (i - 1) = i - 1 := int32_eq_self.2 hint.1
    have hlower := isThreshold_bound hs (i - 1)
    have hupper := isThreshold_bound hs i
    have hafter := upper_le_lower_of_pairwise hs hsorted
    by_cases hle : Float64.le T (getBoundExponential (i - 1) schema) = true
    · -- The bucket and those after it are above the threshold.
      have hle' : ord T ≤ upper schema (i - 1) := (le_iff hT hlower).1 hle
      have hall : ∀ e ∈ (i, c) :: es, ord T ≤ upper schema (e.1 - 1) := by
        intro e he
        rcases mem_cons.1 he with rfl | he
        · exact hle'
        · exact (hle'.trans (upper_mono hs (by omega))).trans (hafter e he)
      exact ⟨count, T, by simp [countPositive, hexact, hle], hT, le_refl _, not_inside_of_le hall,
        by rw [below_eq_zero hall, add_zero], fun u h _ => h⟩
    have hlt : upper schema (i - 1) < ord T := not_le.1 fun h => hle ((le_iff hT hlower).2 h)
    by_cases hin : Float64.lt T (getBoundExponential i schema) = true
    · have hin' : ord T < upper schema i := (lt_iff hT hupper).1 hin
      by_cases hc : c = 0
      · subst hc
        have hall : ∀ e ∈ es, ord T ≤ upper schema (e.1 - 1) := fun e he =>
          hin'.le.trans (hafter e he)
        refine ⟨count + 0, T, by simp [countPositive, hexact, hle, hin], hT, le_refl _, ?_, ?_,
          fun u h _ => h⟩
        · rw [inside_cons]
          exact fun h => h.elim (fun h => h.1 rfl) (not_inside_of_le hall)
        · rw [below_cons, below_eq_zero hall]
          simp
      -- Populated: the threshold is moved to the end of the bucket.
      refine ⟨count + c, _, by simp [countPositive, hexact, hle, hin, hc], hupper,
        hin'.le, ?_, ?_, ?_⟩
      · rw [inside_cons]
        exact fun h => h.elim (fun h => h.2.2.false) (not_inside_of_le hafter)
      · change count + c = count + below schema ((i, c) :: es) (upper schema i)
        rw [below_cons, below_eq_zero hafter, if_pos (hlt.trans hin'), add_zero]
      · intro u hu hclear
        by_contra hgt
        exact hclear (inside_cons.2 (.inl ⟨hc, hlt.trans_le hu, not_le.1 hgt⟩))
    · have hout : upper schema i ≤ ord T := not_lt.1 fun h => hin ((lt_iff hT hupper).2 h)
      obtain ⟨count', T', heq, hT', h⟩ := ih hsorted.of_cons hint.2 (count + c)
      refine ⟨count', T', by simpa [countPositive, hexact, hle, hin] using heq,
        hT', h.le, ?_, ?_, ?_⟩
      · rw [inside_cons]
        exact fun hin => hin.elim (fun hin => (hout.trans h.le).not_gt hin.2.2) h.clear
      · rw [below_cons, if_pos (hlt.trans_le h.le), h.count_eq, add_assoc]
      · exact fun u hu hclear => h.least u hu fun hin => hclear (inside_cons.2 (.inr hin))

open FloatHistogram in
/-- The loop over the negative buckets does what the one over the positive buckets does. It also
says if the threshold was within a bucket. -/
lemma countNegative_eq (hsorted : es.Pairwise fun a b => a.1 < b.1)
    (hint : ∀ e ∈ es, IsInt32 (e.1 - 1)) (count : ℚ) (hT : IsThreshold T) :
    ∃ redo, countNegative schema es count T = (redo, countPositive schema es count T) ∧
      (redo = true ↔ Inside schema es (ord T)) := by
  induction es generalizing count with
  | nil => exact ⟨false, rfl, by simp [Inside]⟩
  | cons e es ih =>
    obtain ⟨i, c⟩ := e
    rw [forall_mem_cons] at hint
    have hexact : int32 (i - 1) = i - 1 := int32_eq_self.2 hint.1
    have hlower := isThreshold_bound hs (i - 1)
    have hupper := isThreshold_bound hs i
    have hafter := upper_le_lower_of_pairwise hs hsorted
    have hle : le (neg (getBoundExponential (i - 1) schema)) (neg T) =
        le T (getBoundExponential (i - 1) schema) := by
      rw [Bool.eq_iff_iff, le_neg_iff hlower hT, le_iff hT hlower]
    have hlt : lt (neg (getBoundExponential i schema)) (neg T) =
        lt T (getBoundExponential i schema) := by
      rw [Bool.eq_iff_iff, lt_neg_iff hupper hT, lt_iff hT hupper]
    simp only [countNegative, countPositive, hexact, hle, hlt, neg_involutive _, inside_cons]
    by_cases h : ord T ≤ upper schema (i - 1)
    · have h' := (le_iff hT hlower).2 h
      refine ⟨false, by rw [if_pos h', if_pos h'], ?_⟩
      have hes : ¬Inside schema es (ord T) := not_inside_of_le fun e he =>
        (h.trans (upper_mono hs (by omega))).trans (hafter e he)
      simp [hes, h]
    have h' : ¬le T (getBoundExponential (i - 1) schema) = true := fun h' =>
      h ((le_iff hT hlower).1 h')
    rw [if_neg h', if_neg h']
    by_cases hin : ord T < upper schema i
    · have hes : ¬Inside schema es (ord T) := not_inside_of_le fun e he =>
        hin.le.trans (hafter e he)
      rw [if_pos ((lt_iff hT hupper).2 hin), if_pos ((lt_iff hT hupper).2 hin)]
      by_cases hc : c = 0
      · exact ⟨false, by simp [hc], by simp [hc, hes]⟩
      · exact ⟨true, by simp [hc], by simp [hc, hin, not_le.1 h]⟩
    · rw [if_neg (fun h' => hin ((lt_iff hT hupper).1 h')),
        if_neg (fun h' => hin ((lt_iff hT hupper).1 h'))]
      obtain ⟨redo, heq, hredo⟩ := ih hsorted.of_cons hint.2 (count + c)
      exact ⟨redo, heq, by simp [hredo, hin]⟩

end Lists

/-! ### The loops end -/

namespace FloatHistogram

/-- The buckets of both sides. -/
def allEntries (h : FloatHistogram) : List (ℤ × ℚ) :=
  h.positiveEntries ++ h.negativeEntries

/-- The number of observations in the zero bucket and in the others. -/
def total (h : FloatHistogram) : ℚ :=
  h.zeroCount + h.positiveBuckets.sum + h.negativeBuckets.sum

/-- An exponential histogram with spans that fit the buckets. -/
structure Exponential (h : FloatHistogram) : Prop where
  schema : isExponentialSchema h.schema = true
  positive : Agree h.positiveSpans h.positiveBuckets
  negative : Agree h.negativeSpans h.negativeBuckets

/-- An exponential histogram with a place in the spans for each bucket. The offsets are whatever
they are after an `int32` has wrapped around. -/
structure Sized (h : FloatHistogram) : Prop where
  schema : isExponentialSchema h.schema = true
  positive : countSpans h.positiveSpans = h.positiveBuckets.length
  negative : countSpans h.negativeSpans = h.negativeBuckets.length

variable {h other h' : FloatHistogram} {fuel : ℕ} {count : ℚ} {T : BitVec 64}

lemma Exponential.sized (hw : Exponential h) : Sized h :=
  ⟨hw.schema, hw.positive.length_eq, hw.negative.length_eq⟩

lemma length_populated_negativeEntries (h : FloatHistogram) :
    (populated h.negativeEntries).length ≤ h.negativeBuckets.length := by
  refine (length_filter_le _ _).trans ?_
  simp [negativeEntries]

lemma above_negativeEntries_le (h : FloatHistogram) (t : ℤ) :
    above h.schema h.negativeEntries t ≤ h.negativeBuckets.length :=
  countP_le_length.trans (length_populated_negativeEntries h)

/-- Each time the count is redone, a populated negative bucket less ends above the threshold. -/
lemma zeroCountLoop_ends (hs : isExponentialSchema h.schema = true) (hT : IsThreshold T)
    (hfuel : above h.schema h.negativeEntries (ord T) < fuel) :
    ∃ count T', zeroCountLoop h fuel T = some (count, T') ∧ IsThreshold T' ∧
      Moved h.schema h.allEntries (ord T) (ord T') := by
  induction fuel generalizing T with
  | zero => omega
  | succ fuel ih =>
    obtain ⟨count₁, T₁, hpos, hT₁, hmoved₁⟩ := countPositive_moved hs
      h.positiveEntries h.zeroCount hT
    obtain ⟨redo, count₂, T₂, hneg, hT₂, hmoved₂, hredo⟩ :=
      countNegative_moved hs h.negativeEntries count₁ hT₁
    have hall : Moved h.schema h.allEntries (ord T) (ord T₂) :=
      (hmoved₁.mono fun e => mem_append_left _).trans (hmoved₂.mono fun e => mem_append_right _)
    simp only [zeroCountLoop, hpos, hneg]
    cases redo with
    | false => exact ⟨count₂, T₂, rfl, hT₂, hall⟩
    | true =>
      have hless := hmoved₂.above_lt (hredo rfl)
      have hless' : above h.schema h.negativeEntries (ord T₁) ≤
          above h.schema h.negativeEntries (ord T) := above_anti hmoved₁.le
      obtain ⟨count, T', heq, hT', hmoved⟩ := ih hT₂ (by omega)
      exact ⟨count, T', heq, hT', hall.trans hmoved⟩

/-- A threshold that is above the histogram's own. -/
lemma zeroCountForLargerThreshold_eq (hself : IsThreshold h.zeroThreshold) (hT : IsThreshold T)
    (hlt : ord h.zeroThreshold < ord T) :
    h.zeroCountForLargerThreshold fuel T = zeroCountLoop h fuel T := by
  simp [zeroCountForLargerThreshold, eq_eq_false hT hself hlt.ne', lt_eq_false hT hself hlt.le]

/-! ### Trimming -/

lemma length_clearFront (inZero : ℤ → Bool) (is : List ℤ) (cs : List ℚ) :
    (clearFront inZero is cs).length = cs.length := by
  fun_induction clearFront inZero is cs <;> simp_all

/-- Trimming changes the spans and the buckets, of which there are not more afterwards. -/
lemma trimBucketsInZeroBucket_ends (hw : Sized h) :
    ∃ ps pb ns nb, trimBucketsInZeroBucket h = some { h with
        positiveSpans := ps, positiveBuckets := pb, negativeSpans := ns, negativeBuckets := nb } ∧
      countSpans ps = pb.length ∧ countSpans ns = nb.length ∧
      nb.length ≤ h.negativeBuckets.length := by
  obtain ⟨⟨pb, ps⟩, hp, hplen, -⟩ := compactBuckets_sized
    (show countSpans h.positiveSpans = (clearFront
      (fun i => !le h.zeroThreshold (getBoundExponential (int32 (i - 1)) h.schema))
      (bucketIndices h.positiveSpans) h.positiveBuckets).length by
        rw [length_clearFront, hw.positive]) false
  obtain ⟨⟨nb, ns⟩, hn, hnlen, hnle⟩ := compactBuckets_sized
    (show countSpans h.negativeSpans = (clearFront
      (fun i => !le (neg (getBoundExponential (int32 (i - 1)) h.schema)) (neg h.zeroThreshold))
      (bucketIndices h.negativeSpans) h.negativeBuckets).length by
        rw [length_clearFront, hw.negative]) false
  rw [length_clearFront] at hnle
  exact ⟨ps, pb, ns, nb, by simp [trimBucketsInZeroBucket, compact, hp, hn], hplen, hnlen, hnle⟩

lemma growZeroBucket_ends (hw : Sized h) (hself : IsThreshold h.zeroThreshold) (hT : IsThreshold T)
    (hlt : ord h.zeroThreshold < ord T) (hfuel : h.negativeBuckets.length < fuel) :
    ∃ h', h.growZeroBucket fuel T = some h' ∧ Sized h' ∧ IsThreshold h'.zeroThreshold ∧
      ord T ≤ ord h'.zeroThreshold ∧ h'.negativeBuckets.length ≤ h.negativeBuckets.length := by
  obtain ⟨count, T', heq, hT', hmoved⟩ := zeroCountLoop_ends hw.schema hT
    ((above_negativeEntries_le h _).trans_lt hfuel)
  obtain ⟨ps, pb, ns, nb, htrim, hp, hn, hle⟩ := trimBucketsInZeroBucket_ends
    (h := { h with zeroCount := count, zeroThreshold := T' }) ⟨hw.schema, hw.positive, hw.negative⟩
  refine ⟨_, Eq.trans ?_ htrim, ⟨hw.schema, hp, hn⟩, hT', hmoved.le, hle⟩
  simp [growZeroBucket, zeroCountForLargerThreshold_eq hself hT hlt, heq]

/-- The number of turns `reconcileZeroBuckets` may need. -/
def reconcileFuel (h other : FloatHistogram) : ℕ :=
  h.negativeBuckets.length + other.positiveBuckets.length + 2 * other.negativeBuckets.length + 3

/-- The turns that may be left: all are over thresholds in different buckets of the other histogram,
apart from the first and the last one. `n` is the number of negative buckets. -/
def turnsLeft (n : ℕ) (other : FloatHistogram) (t t' : ℤ) : ℕ :=
  if t = t' then 1
  else above other.schema other.allEntries t + n +
    other.negativeBuckets.length + (if t < t' then 3 else 2)

/-- **The loop ends**, whatever the offsets are. -/
lemma reconcileLoop_ends (hother : Sized other) (hotherT : IsThreshold other.zeroThreshold) {n : ℕ}
    (fuel : ℕ) (hw : Sized h) (hself : IsThreshold h.zeroThreshold) (hT : IsThreshold T)
    (hle : ord other.zeroThreshold ≤ ord T) (hn : h.negativeBuckets.length ≤ n)
    (hfuel : turnsLeft n other (ord h.zeroThreshold) (ord T) ≤ fuel) :
    (reconcileLoop other fuel h count T).isSome := by
  induction fuel generalizing h count T with
  | zero =>
    unfold turnsLeft at hfuel
    split_ifs at hfuel <;> omega
  | succ fuel ih =>
    by_cases heq : ord h.zeroThreshold = ord T
    · simp [reconcileLoop, (eq_iff hT hself).2 heq.symm]
    have hstop := eq_eq_false hT hself (Ne.symm heq)
    rw [turnsLeft, if_neg heq] at hfuel
    rcases lt_or_gt_of_ne heq with hlt | hgt
    · -- The threshold of the histogram itself is the lower one.
      rw [if_pos hlt] at hfuel
      obtain ⟨h'', hgrow, hw', hself', hge, hn'⟩ :=
        growZeroBucket_ends hw hself hT hlt (show _ < fuel + 1 by omega)
      have hturn : reconcileLoop other (fuel + 1) h count T =
        reconcileLoop other fuel h'' count T := by
        simp [reconcileLoop, hstop, lt_eq_false hT hself hlt.le, (lt_iff hself hT).2 hlt, hgrow]
      rw [hturn]
      refine ih hw' hself' hT hle (hn'.trans hn) ?_
      have : above other.schema other.allEntries (ord h''.zeroThreshold) ≤
          above other.schema other.allEntries (ord h.zeroThreshold) := above_anti (hlt.le.trans hge)
      unfold turnsLeft
      split_ifs <;> omega
    -- The threshold of the other histogram is the lower one.
    rw [if_neg hgt.not_gt] at hfuel
    have hneg := above_negativeEntries_le other (ord h.zeroThreshold)
    obtain ⟨count', T', hcount, hT', hmoved⟩ :=
      zeroCountLoop_ends hother.schema hself (show _ < fuel + 1 by omega)
    rw [← zeroCountForLargerThreshold_eq hotherT hself (hle.trans_lt hgt)] at hcount
    have hTlt : lt T h.zeroThreshold = true := (lt_iff hT hself).2 hgt
    by_cases hlt : ord h.zeroThreshold < ord T'
    · -- The new threshold is too large for the histogram itself.
      have hfewer := hmoved.above_lt hlt
      obtain ⟨h'', hgrow, hw', hself', hge, hn'⟩ :=
        growZeroBucket_ends hw hself hT' hlt (show _ < fuel + 1 by omega)
      have hturn : reconcileLoop other (fuel + 1) h count T =
          reconcileLoop other fuel h'' count' T' := by
        simp [reconcileLoop, hstop, hTlt, hcount, (lt_iff hself hT').2 hlt, hgrow]
      rw [hturn]
      refine ih hw' hself' hT' (by omega) (hn'.trans hn) ?_
      have : above other.schema other.allEntries (ord h''.zeroThreshold) ≤
          above other.schema other.allEntries (ord T') := above_anti hge
      unfold turnsLeft
      split_ifs <;> omega
    · have hturn : reconcileLoop other (fuel + 1) h count T =
          reconcileLoop other fuel h count' T' := by
        simp [reconcileLoop, hstop, hTlt, hcount, lt_eq_false hself hT' (not_lt.1 hlt)]
      rw [hturn]
      have hge := hmoved.le
      refine ih hw hself hT' (by omega) hn ?_
      unfold turnsLeft
      split_ifs <;> omega

lemma reconcileZeroBuckets_ends (hw : Sized h) (hother : Sized other)
    (hself : IsThreshold h.zeroThreshold) (hT : IsThreshold other.zeroThreshold)
    (hfuel : reconcileFuel h other ≤ fuel) : (reconcileZeroBuckets fuel h other).isSome := by
  have hlength : other.allEntries.length ≤
      other.positiveBuckets.length + other.negativeBuckets.length := by
    simp [allEntries, positiveEntries, negativeEntries]
    omega
  have habove : above other.schema other.allEntries (ord h.zeroThreshold) ≤ _ :=
    above_le_length.trans hlength
  refine reconcileLoop_ends hother hT fuel hw hself hT (le_refl _) (le_refl _) ?_
  unfold turnsLeft reconcileFuel at *
  split_ifs <;> omega

/-! ### Thresholds that are not numbers -/

section NaN

variable {T : BitVec 64} (hT : isNaN T = true)

include hT

lemma countPositive_nan (schema : ℤ) (es : List (ℤ × ℚ)) (count : ℚ) :
    (countPositive schema es count T).2 = T := by
  induction es generalizing count with
  | nil => rfl
  | cons e es ih => simp [countPositive, le, lt, hT, ih]

lemma countNegative_nan (schema : ℤ) (es : List (ℤ × ℚ)) (count : ℚ) :
    (countNegative schema es count T).1 = false := by
  induction es generalizing count with
  | nil => rfl
  | cons e es ih => simp [countNegative, le, lt, isNaN_neg, hT, ih]

/-- A threshold that is not a number is within no bucket. -/
lemma zeroCountLoop_nan (h : FloatHistogram) : (zeroCountLoop h 1 T).isSome := by
  have hneg := countNegative_nan hT h.schema h.negativeEntries
    (countPositive h.schema h.positiveEntries h.zeroCount T).1
  simp only [zeroCountLoop, countPositive_nan hT]
  split <;> simp_all

end NaN

section Stuck

variable (hnan : isNaN h.zeroThreshold = true ∨ isNaN T = true)

include hnan

/-- A turn with a threshold that is not a number changes nothing. -/
lemma reconcileLoop_nan :
    reconcileLoop other (fuel + 1) h count T = reconcileLoop other fuel h count T := by
  rcases hnan with hnan | hnan <;> simp [reconcileLoop, Float64.eq, lt, hnan]

lemma reconcileLoop_eq_none (fuel : ℕ) : reconcileLoop other fuel h count T = none := by
  induction fuel with
  | zero => rfl
  | succ fuel ih => rw [reconcileLoop_nan hnan, ih]

end Stuck

/-- **The loops end** exactly if both thresholds are numbers. -/
theorem reconcileZeroBuckets_ends_iff (hh : Exponential h) (hother : Exponential other) :
    ((∃ fuel, (reconcileZeroBuckets fuel h other).isSome) ∧
        ∀ T, ∃ fuel, (zeroCountLoop h fuel T).isSome) ↔
      isNaN h.zeroThreshold = false ∧ isNaN other.zeroThreshold = false := by
  constructor
  · rintro ⟨⟨fuel, hsome⟩, -⟩
    by_contra hnan
    have hnan : isNaN h.zeroThreshold = true ∨ isNaN other.zeroThreshold = true := by
      simpa [or_iff_not_imp_left] using hnan
    simp [reconcileZeroBuckets, reconcileLoop_eq_none hnan] at hsome
  · rintro ⟨hself, hnum⟩
    refine ⟨⟨reconcileFuel h other, ?_⟩, fun T => ?_⟩
    · exact reconcileZeroBuckets_ends hh.sized hother.sized ⟨hself⟩ ⟨hnum⟩ (le_refl _)
    cases hT : isNaN T with
    | true => exact ⟨1, zeroCountLoop_nan hT h⟩
    | false =>
      obtain ⟨count, T', heq, -⟩ := zeroCountLoop_ends hh.schema ⟨hT⟩ (Nat.lt_succ_self _)
      exact ⟨_, by rw [heq, Option.isSome_some]⟩

/-- No observation and a zero bucket up to `zeroThreshold`, in a schema with the bounds 0.5, 1, 2.
-/
def coarse (zeroThreshold : BitVec 64) : FloatHistogram :=
  ⟨.unknownCounterReset, 0, zeroThreshold, 0, 0, 0, [], [], [], [], []⟩

lemma exponential_coarse (zeroThreshold : BitVec 64) : Exponential (coarse zeroThreshold) :=
  ⟨rfl, ⟨rfl, trivial⟩, rfl, trivial⟩

/-- Observations between 1 and 2 and, an octave further, between 4 and 8, also below 0. -/
def bothSides (zeroThreshold : BitVec 64) : FloatHistogram :=
  ⟨.unknownCounterReset, 0, zeroThreshold, 2, 9, 0, [⟨1, 1⟩, ⟨1, 1⟩], [⟨1, 3⟩],
  [3, 1], [1, 0, 2], []⟩

lemma exponential_bothSides (zeroThreshold : BitVec 64) : Exponential (bothSides zeroThreshold) :=
  ⟨rfl, ⟨rfl, by simp [bothSides, NonnegOffsets]⟩, rfl, by simp [bothSides, NonnegOffsets]⟩

/-- Thresholds of 1.5, within a bucket of both sides, and of 0.75. -/
theorem reconcileZeroBuckets_ends_one :
    (∃ fuel, (reconcileZeroBuckets fuel (bothSides 0x3FE8000000000000)
        (bothSides 0x3FF8000000000000)).isSome) ∧
      ∀ T, ∃ fuel, (zeroCountLoop (bothSides 0x3FE8000000000000) fuel T).isSome :=
  (reconcileZeroBuckets_ends_iff (exponential_bothSides _) (exponential_bothSides _)).2 (by decide)

/-- With a threshold of `NaN`, every turn starts as the one before it. -/
theorem reconcileZeroBuckets_nan :
    Exponential (coarse 0x7FF8000000000001) ∧ Exponential (coarse 0) ∧ ∀ fuel,
      reconcileZeroBuckets (fuel + 1) (coarse 0x7FF8000000000001) (coarse 0) =
        reconcileZeroBuckets fuel (coarse 0x7FF8000000000001) (coarse 0) ∧
      reconcileZeroBuckets fuel (coarse 0x7FF8000000000001) (coarse 0) = none :=
  have hnan : isNaN (coarse 0x7FF8000000000001).zeroThreshold = true ∨ _ := .inl (by decide)
  ⟨exponential_coarse _, exponential_coarse _, fun fuel =>
    ⟨reconcileLoop_nan hnan, reconcileLoop_eq_none hnan fuel⟩⟩

/-! ### Indices that do not wrap around -/

/-- The spans have indices that are far from the least and the greatest `int32`, so that they can be
subtracted from each other. -/
structure InBounds (spans : List Span) : Prop where
  offset : ∀ s ∈ spans, IsInt32 s.offset
  first : ∀ i ∈ spans.head?.map Span.offset, -2 ^ 30 < i ∧ i < 2 ^ 30
  index : ∀ i ∈ indices 0 spans, -2 ^ 30 < i ∧ i < 2 ^ 30

section InBounds

variable {spans : List Span} {buckets : List ℚ}

lemma InBounds.bucketIndices_eq (h : InBounds spans) : bucketIndices spans = indices 0 spans := by
  refine (map_congr_left fun i hi => int32_eq_self.2 ?_).trans (map_id _)
  have := h.index i hi
  constructor <;> omega

lemma InBounds.entries_eq (h : InBounds spans) :
    (bucketIndices spans).zip buckets = entries spans buckets := by
  rw [h.bucketIndices_eq, entries]

lemma InBounds.isInt32_sub_one (h : InBounds spans) (buckets : List ℚ) :
    ∀ e ∈ entries spans buckets, IsInt32 (e.1 - 1) := by
  intro e he
  have := h.index e.1 (of_mem_zip he).1
  constructor <;> omega

/-- If no span is empty, each offset is the distance of two indices. -/
lemma inBounds_of_pos (hoff : NonnegOffsets spans) (hpos : ∀ s ∈ spans, 0 < s.length)
    (hindex : ∀ i ∈ indices 0 spans, -2 ^ 30 < i ∧ i < 2 ^ 30) : InBounds spans := by
  have hmem : ∀ as {s bs}, spans = as ++ s :: bs → endIdx 0 as + s.offset ∈ indices 0 spans := by
    rintro as s bs rfl
    have := hpos s (by simp)
    exact mem_indices_span (le_refl _) (by omega) bs
  refine ⟨fun s hs => ?_, fun i hi => ?_, hindex⟩
  · obtain ⟨as, bs, rfl⟩ := append_of_mem hs
    have hs := hindex _ (hmem _ rfl)
    rcases eq_nil_or_concat' as with rfl | ⟨ts, t, rfl⟩
    · rw [endIdx_nil] at hs
      constructor <;> omega
    -- The last index of the span before.
    have ht := hpos t (by simp)
    have hassoc : ts ++ [t] ++ s :: bs = ts ++ t :: s :: bs := by simp
    have hend : endIdx 0 (ts ++ [t]) = endIdx 0 ts + t.offset + t.length := by
      rw [endIdx_append]
      rfl
    have hlast := hindex (endIdx 0 (ts ++ [t]) - 1) (by
      rw [hassoc]
      exact mem_indices_span (by omega) (by omega) _)
    have : 0 ≤ s.offset := by
      cases ts with
      | nil => exact hoff s (by simp)
      | cons u us => exact hoff s (by simp)
    constructor <;> omega
  · cases spans with
    | nil => simp at hi
    | cons s ss =>
      obtain rfl : s.offset = i := by simpa using hi
      simpa using hindex _ (hmem [] rfl)

end InBounds

/-- An exponential histogram with a threshold that is a number and indices that do not wrap around.
-/
structure WellFormed (h : FloatHistogram) : Prop extends Exponential h where
  threshold : IsThreshold h.zeroThreshold
  positive_in : InBounds h.positiveSpans
  negative_in : InBounds h.negativeSpans

section Spec

variable (hw : WellFormed h)

include hw

lemma WellFormed.positiveEntries_eq :
    h.positiveEntries = entries h.positiveSpans h.positiveBuckets :=
  hw.positive_in.entries_eq

lemma WellFormed.negativeEntries_eq :
    h.negativeEntries = entries h.negativeSpans h.negativeBuckets :=
  hw.negative_in.entries_eq

lemma WellFormed.total_eq : h.total = h.zeroCount + (h.allEntries.map Prod.snd).sum := by
  rw [total, allEntries, map_append, sum_append, hw.positiveEntries_eq, hw.negativeEntries_eq,
    hw.positive.map_snd_entries, hw.negative.map_snd_entries, add_assoc]

/-- The threshold found is the first one from `T` on that is in no bucket. -/
lemma zeroCountLoop_spec (hT : IsThreshold T) {count : ℚ} {T' : BitVec 64}
    (heq : zeroCountLoop h fuel T = some (count, T')) :
    IsThreshold T' ∧ Counted h.schema h.allEntries h.zeroCount (ord T) count (ord T') := by
  induction fuel generalizing T with
  | zero => simp [zeroCountLoop] at heq
  | succ fuel ih =>
    have hpsorted := pairwise_entries hw.positive.offsets h.positiveBuckets
    have hsorted := pairwise_entries hw.negative.offsets h.negativeBuckets
    have hpint := hw.positive_in.isInt32_sub_one h.positiveBuckets
    have hint := hw.negative_in.isInt32_sub_one h.negativeBuckets
    rw [← hw.positiveEntries_eq] at hpsorted hpint
    rw [← hw.negativeEntries_eq] at hsorted hint
    obtain ⟨count₁, T₁, hpos, hT₁, hcounted₁⟩ :=
      countPositive_spec hw.schema hpsorted hpint h.zeroCount hT
    obtain ⟨redo, hneg, hredo⟩ := countNegative_eq hw.schema hsorted hint count₁ hT₁
    obtain ⟨count₂, T₂, heq₂, hT₂, hcounted₂⟩ :=
      countPositive_spec hw.schema hsorted hint count₁ hT₁
    rw [heq₂] at hneg
    simp only [zeroCountLoop, hpos, hneg] at heq
    -- A threshold that is in no bucket is not below the ones found.
    have hle₁ : ∀ u, ord T ≤ u → ¬Inside h.schema h.allEntries u → ord T₁ ≤ u := fun u hu hclear =>
      hcounted₁.least u hu fun hin => hclear (inside_append.2 (.inl hin))
    cases redo with
    | false =>
      obtain ⟨rfl, rfl⟩ := Prod.mk.inj (Option.some.inj heq)
      have hclear : ¬Inside h.schema h.negativeEntries (ord T₁) := fun hin => by
        simpa using hredo.2 hin
      have hT₂eq : ord T₂ = ord T₁ :=
        le_antisymm (hcounted₂.least _ (le_refl _) hclear) hcounted₂.le
      refine ⟨hT₂, ?_⟩
      rw [hT₂eq]
      refine ⟨hcounted₁.le, ?_, ?_, hle₁⟩
      · rw [allEntries, inside_append]
        exact fun hin => hin.elim hcounted₁.clear hclear
      · rw [hcounted₂.count_eq, hcounted₁.count_eq, hT₂eq, allEntries, below_append, add_assoc]
    | true =>
      obtain ⟨hT', hcounted⟩ := ih hT₂ heq
      refine ⟨hT', (hcounted₁.le.trans hcounted₂.le).trans hcounted.le,
        hcounted.clear, hcounted.count_eq, fun u hu hclear => ?_⟩
      refine hcounted.least u (hcounted₂.least u (hle₁ u hu hclear) fun hin => ?_) hclear
      exact hclear (inside_append.2 (.inr hin))

end Spec

/-- `clearFront` empties the buckets in the zero bucket if they are all at the front. -/
lemma populated_clearFront {inZero : ℤ → Bool} {is : List ℤ} (hsorted : is.Pairwise (· < ·))
    (hmono : ∀ i ∈ is, ∀ j ∈ is, i ≤ j → inZero j → inZero i) (cs : List ℚ) :
    populated (is.zip (clearFront inZero is cs)) =
      (populated (is.zip cs)).filter fun e => !inZero e.1 := by
  induction is generalizing cs with
  | nil => rfl
  | cons i is ih =>
    obtain _ | ⟨c, cs⟩ := cs
    · rfl
    obtain ⟨hi, his⟩ := pairwise_cons.1 hsorted
    have ih := ih his fun j hj k hk => hmono j (mem_cons_of_mem _ hj) k (mem_cons_of_mem _ hk)
    by_cases hz : inZero i = true
    · by_cases hc : c = 0 <;> simp_all [clearFront, populated]
    -- From here on no bucket is in the zero bucket.
    have hall : ∀ e ∈ populated ((i, c) :: is.zip cs), (!inZero e.1) = true := by
      intro e he
      have hmem := (mem_filter.1 he).1
      have hle : e.1 ∈ i :: is ∧ i ≤ e.1 := by
        rcases mem_cons.1 hmem with rfl | hmem
        · exact ⟨mem_cons_self, le_refl _⟩
        · have := (of_mem_zip hmem).1
          exact ⟨mem_cons_of_mem _ this, (hi _ this).le⟩
      simpa using fun hj => hz (hmono i mem_cons_self e.1 hle.1 hle.2 hj)
    rw [clearFront, if_neg hz, zip_cons_cons, filter_eq_self.2 hall]

/-- The spans of both sides have buckets. -/
def SpansNonempty (h : FloatHistogram) : Prop :=
  (∀ s ∈ h.positiveSpans, 0 < s.length) ∧ ∀ s ∈ h.negativeSpans, 0 < s.length

/-- A side of a histogram in `trimBucketsInZeroBucket`. -/
lemma trim_side {schema : ℤ} (hs : isExponentialSchema schema = true) {spans : List Span}
    {buckets : List ℚ} (h : Agree spans buckets) (hin : InBounds spans) (inZero : ℤ → Bool) {t : ℤ}
    (hzero : ∀ i ∈ indices 0 spans, inZero i = true ↔ upper schema (i - 1) < t) :
    ∃ buckets' spans',
      compactBuckets (clearFront inZero (bucketIndices spans) buckets) spans 0 false =
        some (buckets', spans') ∧
      Agree spans' buckets' ∧ InBounds spans' ∧ (∀ s ∈ spans', 0 < s.length) ∧
      populated (entries spans' buckets') =
        atOrAbove schema (populated (entries spans buckets)) t := by
  have hagree : Agree spans (clearFront inZero (indices 0 spans) buckets) :=
    ⟨by rw [length_clearFront, h.length_eq], h.offsets⟩
  have hpop : populated (entries spans (clearFront inZero (indices 0 spans) buckets)) =
      atOrAbove schema (populated (entries spans buckets)) t := by
    rw [entries, populated_clearFront (pairwise_indices 0 h.offsets) fun i hi j hj hij hj' =>
      (hzero i hi).2 ((upper_mono hs (by omega)).trans_lt ((hzero j hj).1 hj'))]
    refine filter_congr fun e he => ?_
    have hmem := (of_mem_zip (mem_filter.1 he).1).1
    rw [Bool.eq_iff_iff, Bool.not_eq_true', ← Bool.not_eq_true, hzero _ hmem]
    simp
  -- The indices left are some of those there were.
  have hsub : ∀ i ∈ (populated (entries spans
      (absolute false 0 (clearFront inZero (indices 0 spans) buckets)))).map Prod.fst,
      -2 ^ 30 < i ∧ i < 2 ^ 30 := by
    intro i hi
    obtain ⟨e, he, rfl⟩ := mem_map.1 hi
    exact hin.index _ (of_mem_zip (mem_filter.1 he).1).1
  rw [hin.bucketIndices_eq]
  obtain ⟨r, heq, hr⟩ := compactBuckets_clean hagree false
    ⟨fun i hi _ => by have := hsub i hi; constructor <;> omega, fun i hi j hj hij => by
      have := hsub i hi
      have := hsub j hj
      have := hij.2.2.1
      constructor <;> omega⟩
  refine ⟨r.1, r.2, heq, hr.agree, ?_, hr.clean.pos, ?_⟩
  · refine inBounds_of_pos hr.agree.offsets hr.clean.pos fun i hi => ?_
    rw [hr.indices_eq] at hi
    exact hsub i hi
  · have := hr.populated_eq
    rw [absolute_false, absolute_false] at this
    rw [this, hpop]

lemma trimBucketsInZeroBucket_spec (hw : WellFormed h) :
    ∃ ps pb ns nb, trimBucketsInZeroBucket h = some { h with
        positiveSpans := ps, positiveBuckets := pb, negativeSpans := ns, negativeBuckets := nb } ∧
      Agree ps pb ∧ Agree ns nb ∧ InBounds ps ∧ InBounds ns ∧
      (∀ s ∈ ps, 0 < s.length) ∧ (∀ s ∈ ns, 0 < s.length) ∧
      populated (entries ps pb) =
        atOrAbove h.schema (populated h.positiveEntries) (ord h.zeroThreshold) ∧
      populated (entries ns nb) =
        atOrAbove h.schema (populated h.negativeEntries) (ord h.zeroThreshold) := by
  have hbound := isThreshold_bound hw.schema
  have hexact : ∀ {spans : List Span}, InBounds spans → ∀ i ∈ indices 0 spans,
      int32 (i - 1) = i - 1 := fun hin i hi => int32_eq_self.2 (by
    have := hin.index i hi
    constructor <;> omega)
  obtain ⟨pb, ps, hp, hpagree, hpin, hppos, hppop⟩ := trim_side hw.schema hw.positive hw.positive_in
    (fun i => !le h.zeroThreshold (getBoundExponential (int32 (i - 1)) h.schema))
    (by
      intro i hi
      rw [hexact hw.positive_in i hi, not_eq_true', ← not_eq_true, le_iff hw.threshold (hbound _),
        not_le]
      rfl)
  obtain ⟨nb, ns, hn, hnagree, hnin, hnpos, hnpop⟩ := trim_side hw.schema hw.negative hw.negative_in
    (fun i => !le (neg (getBoundExponential (int32 (i - 1)) h.schema)) (neg h.zeroThreshold))
    (by
      intro i hi
      rw [hexact hw.negative_in i hi, not_eq_true', ← not_eq_true,
        le_neg_iff (hbound _) hw.threshold, not_le]
      rfl)
  refine ⟨ps, pb, ns, nb, ?_, hpagree, hnagree, hpin, hnin, hppos, hnpos, ?_, ?_⟩
  · simp [trimBucketsInZeroBucket, compact, hp, hn]
  · rw [hppop, hw.positiveEntries_eq]
  · rw [hnpop, hw.negativeEntries_eq]

/-! ### Raising the threshold of a histogram -/

/-- `h'` is `h` with the threshold moved to the first one from `t` on that is in no bucket. -/
structure Raised (h h' : FloatHistogram) (t : ℤ) : Prop where
  wellFormed : WellFormed h'
  schema_eq : h'.schema = h.schema
  total_eq : h'.total = h.total
  le : t ≤ ord h'.zeroThreshold
  clear : ¬Inside h.schema h.allEntries (ord h'.zeroThreshold)
  least : ∀ u, t ≤ u → ¬Inside h.schema h.allEntries u → ord h'.zeroThreshold ≤ u
  inside_iff : ∀ u, ord h'.zeroThreshold ≤ u →
    (Inside h'.schema h'.allEntries u ↔ Inside h.schema h.allEntries u)
  spans : SpansNonempty h'

lemma growZeroBucket_spec (hw : WellFormed h) (hT : IsThreshold T)
    (hlt : ord h.zeroThreshold < ord T) {h' : FloatHistogram}
    (hgrow : h.growZeroBucket fuel T = some h') : Raised h h' (ord T) := by
  rw [growZeroBucket, zeroCountForLargerThreshold_eq hw.threshold hT hlt, Option.bind_eq_bind,
    Option.bind_eq_some_iff] at hgrow
  obtain ⟨⟨count, T'⟩, heq, hgrow⟩ := hgrow
  obtain ⟨hT', hcounted⟩ := zeroCountLoop_spec hw hT heq
  have hw' : WellFormed { h with zeroCount := count, zeroThreshold := T' } :=
    ⟨⟨hw.schema, hw.positive, hw.negative⟩, hT', hw.positive_in, hw.negative_in⟩
  obtain ⟨ps, pb, ns, nb, htrim, hp, hn, hpin, hnin, hppos, hnpos, hppop, hnpop⟩ :=
    trimBucketsInZeroBucket_spec hw'
  obtain rfl := Option.some.inj (htrim.symm.trans hgrow)
  set h' : FloatHistogram := { h with
    zeroCount := count, zeroThreshold := T', positiveSpans := ps, positiveBuckets := pb,
    negativeSpans := ns, negativeBuckets := nb }
  have hwf : WellFormed h' := ⟨⟨hw.schema, hp, hn⟩, hT', hpin, hnin⟩
  -- The buckets left are those at the threshold or above it.
  have hpop : populated h'.allEntries = atOrAbove h.schema (populated h.allEntries) (ord T') := by
    rw [allEntries, allEntries, populated_append, populated_append, atOrAbove, filter_append,
      hwf.positiveEntries_eq, hwf.negativeEntries_eq]
    exact congrArg₂ (· ++ ·) hppop hnpop
  have hclear : ¬Inside h.schema (populated h.allEntries) (ord T') := fun hin =>
    hcounted.clear (inside_populated.1 hin)
  refine ⟨hwf, rfl, ?_, hcounted.le, hcounted.clear, hcounted.least, fun u hu => ?_,
    ⟨hppos, hnpos⟩⟩
  · calc h'.total = count + ((populated h'.allEntries).map Prod.snd).sum := by
          rw [hwf.total_eq, sum_populated]
      _ = h.zeroCount + (below h.schema (populated h.allEntries) (ord T') +
            ((atOrAbove h.schema (populated h.allEntries) (ord T')).map Prod.snd).sum) := by
          rw [hpop, hcounted.count_eq, below_populated, add_assoc]
      _ = h.total := by
          rw [sum_atOrAbove, sum_populated, hw.total_eq]
  · change Inside h.schema h'.allEntries u ↔ _
    rw [← inside_populated, hpop, inside_atOrAbove hclear hu, inside_populated]

/-! ### A common threshold -/

/-- A threshold that does not cut a populated bucket. The one the histogram has is not looked at. -/
def Clear (h : FloatHistogram) (t : ℤ) : Prop :=
  t = ord h.zeroThreshold ∨ ¬Inside h.schema h.allEntries t

/-- The thresholds that two histograms can have in common. -/
def commonThresholds (h other : FloatHistogram) : Set ℤ :=
  {t | ord h.zeroThreshold ≤ t ∧ ord other.zeroThreshold ≤ t ∧ Clear h t ∧ Clear other t}

/-- The zero count of a histogram with a threshold of `t`. The buckets below its own threshold are
not looked at. -/
def zeroCountAt (h : FloatHistogram) (t : ℤ) : ℚ :=
  h.zeroCount + if t = ord h.zeroThreshold then 0 else below h.schema h.allEntries t

/-- What holds in each turn of `reconcileZeroBuckets`: `h'` is `h` so far, `count` and `T` are those
of the zero bucket of the other histogram. -/
structure Reconciling (h other h' : FloatHistogram) (count : ℚ) (T : BitVec 64) : Prop where
  wellFormed : WellFormed h'
  threshold : IsThreshold T
  schema_eq : h'.schema = h.schema
  total_eq : h'.total = h.total
  le : ord h.zeroThreshold ≤ ord h'.zeroThreshold
  other_le : ord other.zeroThreshold ≤ ord T
  clear : Clear h (ord h'.zeroThreshold)
  other_clear : Clear other (ord T)
  least : ∀ u ∈ commonThresholds h other, ord h'.zeroThreshold ≤ u ∧ ord T ≤ u
  inside_iff : ∀ u, ord h'.zeroThreshold ≤ u →
    (Inside h'.schema h'.allEntries u ↔ Inside h.schema h.allEntries u)
  unchanged_or : h' = h ∨ ord h.zeroThreshold < ord h'.zeroThreshold ∧ SpansNonempty h'
  count_eq : count = other.zeroCountAt (ord T)

lemma Reconciling.start (hw : WellFormed h) (hother : WellFormed other) :
    Reconciling h other h other.zeroCount other.zeroThreshold where
  wellFormed := hw
  threshold := hother.threshold
  schema_eq := rfl
  total_eq := rfl
  le := le_refl _
  other_le := le_refl _
  clear := .inl rfl
  other_clear := .inl rfl
  least := fun _ hu => ⟨hu.1, hu.2.1⟩
  inside_iff := fun _ _ => Iff.rfl
  unchanged_or := .inl rfl
  count_eq := by simp [zeroCountAt]

/-- The threshold of the other histogram is the lower one. -/
lemma Reconciling.raiseOther (hother : WellFormed other) (hr : Reconciling h other h' count T)
    (hlt : ord T < ord h'.zeroThreshold) {count' : ℚ} {T' : BitVec 64}
    (heq : other.zeroCountForLargerThreshold fuel h'.zeroThreshold = some (count', T')) :
    Reconciling h other h' count' T' := by
  have hself := hr.wellFormed.threshold
  have habove : ord other.zeroThreshold < ord h'.zeroThreshold := hr.other_le.trans_lt hlt
  rw [zeroCountForLargerThreshold_eq hother.threshold hself habove] at heq
  obtain ⟨hT', hcounted⟩ := zeroCountLoop_spec hother hself heq
  refine { hr with
    threshold := hT'
    other_le := habove.le.trans hcounted.le
    other_clear := .inr hcounted.clear
    least := fun u hu => ⟨(hr.least u hu).1, ?_⟩
    count_eq := ?_ }
  · -- A common threshold is above the one the other histogram has, so it cuts no bucket.
    have hle := (hr.least u hu).1
    rcases hu.2.2.2 with heq | hclear
    · omega
    · exact hcounted.least u hle hclear
  · rw [hcounted.count_eq, zeroCountAt, if_neg (habove.trans_le hcounted.le).ne']

/-- The threshold of the histogram itself is the lower one. -/
lemma Reconciling.raise (hr : Reconciling h other h' count T)
    (hlt : ord h'.zeroThreshold < ord T) {h'' : FloatHistogram}
    (heq : h'.growZeroBucket fuel T = some h'') : Reconciling h other h'' count T := by
  have hraised := growZeroBucket_spec hr.wellFormed hr.threshold hlt heq
  have hlt' : ord h'.zeroThreshold < ord h''.zeroThreshold := hlt.trans_le hraised.le
  refine { hr with
    wellFormed := hraised.wellFormed
    schema_eq := hraised.schema_eq.trans hr.schema_eq
    total_eq := hraised.total_eq.trans hr.total_eq
    le := hr.le.trans hlt'.le
    clear := .inr fun hin => hraised.clear ((hr.inside_iff _ hlt'.le).2 hin)
    least := fun u hu => ⟨?_, (hr.least u hu).2⟩
    inside_iff := fun u hu =>
      (hraised.inside_iff u hu).trans (hr.inside_iff u (hlt'.le.trans hu))
    unchanged_or := .inr ⟨hr.le.trans_lt hlt', hraised.spans⟩ }
  have hle := (hr.least u hu).2
  rcases hu.2.2.1 with heq | hclear
  · have := hr.le
    omega
  · exact hraised.least u hle fun hin => hclear ((hr.inside_iff u (by omega)).1 hin)

lemma Reconciling.loop (hother : WellFormed other) (hr : Reconciling h other h' count T)
    {h'' : FloatHistogram} {count' : ℚ}
    (heq : reconcileLoop other fuel h' count T = some (h'', count')) :
    ∃ T', Reconciling h other h'' count' T' ∧ ord h''.zeroThreshold = ord T' := by
  induction fuel generalizing h' count T with
  | zero => simp [reconcileLoop] at heq
  | succ fuel ih =>
    have hself := hr.wellFormed.threshold
    by_cases hstop : Float64.eq T h'.zeroThreshold = true
    · obtain ⟨rfl, rfl⟩ : h' = h'' ∧ count = count' := by simpa [reconcileLoop, hstop] using heq
      exact ⟨T, hr, ((eq_iff hr.threshold hself).1 hstop).symm⟩
    -- The second half of a turn.
    have hsecond : ∀ count₁ T₁, Reconciling h other h' count₁ T₁ →
        (if lt h'.zeroThreshold T₁ then
            (h'.growZeroBucket (fuel + 1) T₁).bind fun h => reconcileLoop other fuel h count₁ T₁
          else reconcileLoop other fuel h' count₁ T₁) = some (h'', count') →
        ∃ T', Reconciling h other h'' count' T' ∧ ord h''.zeroThreshold = ord T' := by
      intro count₁ T₁ hr₁ heq
      split_ifs at heq with hlt
      · obtain ⟨h₁, hgrow, heq⟩ := Option.bind_eq_some_iff.1 heq
        exact ih (hr₁.raise ((lt_iff hself hr₁.threshold).1 hlt) hgrow) heq
      · exact ih hr₁ heq
    rw [reconcileLoop, if_neg hstop] at heq
    by_cases hlt : lt T h'.zeroThreshold = true
    · simp only [hlt, if_true, Option.bind_eq_bind] at heq
      obtain ⟨⟨count₁, T₁⟩, hraise, heq⟩ := Option.bind_eq_some_iff.1 heq
      exact hsecond _ _ (hr.raiseOther hother ((lt_iff hr.threshold hself).1 hlt) hraise) heq
    · simp only [hlt, false_eq_true, if_false, Option.bind_eq_bind, Option.bind_some] at heq
      exact hsecond _ _ hr heq

/-- The result of `reconcileZeroBuckets`. -/
structure Reconciled (h other h' : FloatHistogram) (otherZeroCount : ℚ) : Prop where
  wellFormed : WellFormed h'
  schema_eq : h'.schema = h.schema
  total_eq : h'.total = h.total
  isLeast : IsLeast (commonThresholds h other) (ord h'.zeroThreshold)
  unchanged_or : h' = h ∨ ord h.zeroThreshold < ord h'.zeroThreshold ∧ SpansNonempty h'
  otherZeroCount_eq : otherZeroCount = other.zeroCountAt (ord h'.zeroThreshold)

/-- **The loop ends with the least common threshold.** -/
theorem reconcileZeroBuckets_spec (hw : WellFormed h) (hother : WellFormed other)
    (hfuel : reconcileFuel h other ≤ fuel) :
    ∃ h' otherZeroCount, reconcileZeroBuckets fuel h other = some (h', otherZeroCount) ∧
      Reconciled h other h' otherZeroCount := by
  obtain ⟨⟨h', count⟩, heq⟩ := Option.isSome_iff_exists.1 (reconcileZeroBuckets_ends
    hw.toExponential.sized hother.toExponential.sized hw.threshold hother.threshold hfuel)
  obtain ⟨T, hr, hT⟩ := (Reconciling.start hw hother).loop hother heq
  refine ⟨h', count, heq, hr.wellFormed, hr.schema_eq, hr.total_eq, ⟨⟨hr.le, ?_, hr.clear, ?_⟩, ?_⟩,
    hr.unchanged_or, ?_⟩
  · exact hT ▸ hr.other_le
  · exact hT ▸ hr.other_clear
  · exact fun u hu => (hr.least u hu).1
  · exact hT ▸ hr.count_eq

end FloatHistogram

end Prometheus.Histogram
