import Prometheus.Histogram.AddBuckets

/-!
# No observation is lost

`Add` and `Sub` should neither lose an observation nor count one twice. They do so if and only if
two steps of the code agree on the buckets of the other histogram (`Partitioned`): those that
`reconcileZeroBuckets` has put into the zero bucket have to be those that `addBuckets` leaves out.

The two steps look at different bounds. The first one compares the lower bound in the schema of the
other histogram, the second one the upper bound in the schema of the sum. If that schema is smaller,
the threshold may be within a bucket of it, although it is not within a bucket of either histogram:
the buckets below the threshold are then counted twice. And if the threshold is the one the other
histogram has, the first step does not look at its buckets: the ones that are below the threshold
nevertheless are lost.

The indices are assumed to be between `-2 ^ 30` and `2 ^ 30` (`InBounds`). Distances between them
are then `int32`s, a smaller schema keeps them there (`targetIdx_between`), and `addBuckets` has a
window for both sides (`fitInWindow`).
-/

namespace Prometheus.Histogram

open Float64 Option

/-- Two ways to choose from the same counts, one of which takes all that the other takes. -/
lemma sumOver_eq_sumOver_iff {p q : ℤ → Bool} {es : List (ℤ × ℚ)} (hes : ∀ e ∈ es, 0 ≤ e.2)
    (hpq : ∀ e ∈ es, p e.1 = true → q e.1 = true) :
    sumOver p es = sumOver q es ↔ ∀ e ∈ es, e.2 ≠ 0 → (p e.1 = true ↔ q e.1 = true) := by
  suffices h : sumOver p es ≤ sumOver q es ∧
      (sumOver p es = sumOver q es ↔ ∀ e ∈ es, e.2 ≠ 0 → (p e.1 = true ↔ q e.1 = true)) from h.2
  induction es with
  | nil => simp
  | cons e es ih =>
    rw [List.forall_mem_cons] at hes hpq ⊢
    obtain ⟨hle, hiff⟩ := ih hes.2 hpq.2
    rw [sumOver_cons, sumOver_cons, ← hiff]
    by_cases hp : p e.1 = true
    · simp [hp, hpq.1 hp, hle]
    by_cases hq : q e.1 = true
    · simp only [hp, hq, if_true, Bool.false_eq_true, if_false, zero_add, false_iff, not_true]
      refine ⟨by linarith, fun h => ⟨fun hne => hne ?_, ?_⟩, fun ⟨h0, h⟩ => ?_⟩
      · linarith
      · linarith
      · rw [h, not_not.1 h0, zero_add]
    · simp [hp, hq, hle]

namespace FloatHistogram

/-- A histogram that passes `Validate`, with an exponential schema and a threshold that is a
number. -/
structure Valid (h : FloatHistogram) : Prop extends WellFormed h where
  positive_nonneg : ∀ c ∈ h.positiveBuckets, 0 ≤ c
  negative_nonneg : ∀ c ∈ h.negativeBuckets, 0 ≤ c

variable {h other : FloatHistogram} {buckets : List ℚ} {spans : List Span}

lemma Valid.nonneg (hv : Valid h) : ∀ e ∈ h.allEntries, 0 ≤ e.2 := by
  intro e he
  rcases List.mem_append.1 he with he | he
  · exact hv.positive_nonneg _ (List.of_mem_zip he).2
  · exact hv.negative_nonneg _ (List.of_mem_zip he).2

lemma WellFormed.usesCustomBuckets_eq (hw : WellFormed h) : h.usesCustomBuckets = false := by
  have := hw.schema
  simp [isExponentialSchema, exponentialSchemaMin] at this
  simp [usesCustomBuckets, isCustomBucketsSchema, customBucketsSchema]
  omega

/-! ### The condition -/

variable (h other)

/-- The schema of a sum. -/
def sumSchema : ℤ :=
  min h.schema other.schema

/-- The index in the sum of a bucket of the other histogram. -/
def sumIdx (i : ℤ) : ℤ :=
  targetIdx i other.schema h.schema

/-- The other histogram's bucket `i` goes into the zero bucket, for a threshold of `t`. -/
def Zeroed (other : FloatHistogram) (t i : ℤ) : Prop :=
  t ≠ ord other.zeroThreshold ∧ upper other.schema (i - 1) < t

/-- The other histogram's bucket `i` is not added to a bucket. -/
def Skipped (t i : ℤ) : Prop :=
  upper (sumSchema h other) (sumIdx h other i) ≤ t

/-- On one side: the receiver has spans, all of them empty, and the first bucket to add is at the
offset of the first one. -/
def BlockedSide (t : ℤ) (spansA : List Span) (bucketsA : List ℚ) (spansB : List Span) : Prop :=
  ∃ i, StuckAt spansA bucketsA i ∧
    IsLeast {i | (∃ j ∈ indices 0 spansB, sumIdx h other j = i) ∧ t < upper (sumSchema h other) i} i

/-- On one of the sides, in the schema of the receiver. -/
def Blocked (t : ℤ) : Prop :=
  h.schema ≤ other.schema ∧
    (BlockedSide h other t h.positiveSpans h.positiveBuckets other.positiveSpans ∨
      BlockedSide h other t h.negativeSpans h.negativeBuckets other.negativeSpans)

/-- With the least threshold that the histograms can have in common, each populated bucket of the
other one goes either into the zero bucket or into another one. -/
def Partitioned : Prop :=
  ∃ t, IsLeast (commonThresholds h other) t ∧
    (∀ e ∈ other.allEntries, e.2 ≠ 0 → (Zeroed other t e.1 ↔ Skipped h other t e.1)) ∧
    ¬(t = ord h.zeroThreshold ∧ Blocked h other t)

variable {h other}

instance (t i : ℤ) : Decidable (Zeroed other t i) :=
  inferInstanceAs (Decidable (_ ∧ _))

instance (t i : ℤ) : Decidable (Skipped h other t i) :=
  inferInstanceAs (Decidable (_ ≤ _))

lemma isExponentialSchema_sumSchema (hh : WellFormed h) (hother : WellFormed other) :
    isExponentialSchema (sumSchema h other) = true := by
  rcases min_choice h.schema other.schema with hmin | hmin <;> rw [sumSchema, hmin]
  · exact hh.schema
  · exact hother.schema

/-- Of a bucket that is only left out and one that is only put into the zero bucket, there is at
most one: the bounds increase in both schemas. -/
lemma skipped_or_zeroed (hh : WellFormed h) (hother : WellFormed other) (t : ℤ) :
    (∀ i, Skipped h other t i → Zeroed other t i) ∨
      ∀ i, Zeroed other t i → Skipped h other t i := by
  by_contra hno
  simp only [not_or, not_forall] at hno
  obtain ⟨⟨i, hskip, hzero⟩, j, hzero', hskip'⟩ := hno
  have hge : t ≤ upper other.schema (i - 1) := not_lt.1 fun hlt => hzero ⟨hzero'.1, hlt⟩
  have hij : j ≤ i := by
    by_contra hlt
    exact (hzero'.2.trans_le hge).not_ge (upper_mono hother.schema (by omega))
  exact hskip' ((upper_mono (isExponentialSchema_sumSchema hh hother)
    (targetIdx_mono _ _ hij)).trans hskip)

/-- What the other histogram contributes is its total if and only if no populated bucket is counted
twice or not at all. -/
lemma contribution_eq_total_iff (hh : WellFormed h) (hother : Valid other) (t : ℤ) :
    other.zeroCountAt t + sumOver (fun i => !decide (Skipped h other t i)) other.allEntries =
        other.total ↔
      ∀ e ∈ other.allEntries, e.2 ≠ 0 → (Zeroed other t e.1 ↔ Skipped h other t e.1) := by
  have hzero : other.zeroCountAt t =
      other.zeroCount + sumOver (fun i => Zeroed other t i) other.allEntries := by
    rw [zeroCountAt]
    split_ifs with heq
    · simp [Zeroed, heq, sumOver]
    · simp [Zeroed, heq, below]
  have hsum := sumOver_add_not (fun i => Skipped h other t i) other.allEntries
  have hiff : sumOver (fun i => Zeroed other t i) other.allEntries =
        sumOver (fun i => Skipped h other t i) other.allEntries ↔
      ∀ e ∈ other.allEntries, e.2 ≠ 0 → (Zeroed other t e.1 ↔ Skipped h other t e.1) := by
    rcases skipped_or_zeroed hh hother.toWellFormed t with hle | hle
    · rw [eq_comm, sumOver_eq_sumOver_iff hother.nonneg (by simpa using fun i _ _ => hle i)]
      simp [Iff.comm]
    · rw [sumOver_eq_sumOver_iff hother.nonneg (by simpa using fun i _ _ => hle i)]
      simp
  rw [← hiff, hzero, hother.total_eq, ← hsum]
  constructor <;> intro heq <;> linarith

/-! ### The same schema -/

lemma targetIdx_of_le {origin target : ℤ} (hle : origin ≤ target) (i : ℤ) :
    targetIdx i origin target = i := by
  rw [targetIdx, Int.toNat_eq_zero.2 (by omega), pow_zero, Int.ediv_one]
  ring

/-- An index moves towards 0 or 1. -/
lemma targetIdx_between {lo hi i : ℤ} (hlo : lo < 1) (hhi : 0 < hi) (hi' : lo < i ∧ i < hi)
    (origin target : ℤ) : lo < targetIdx i origin target ∧ targetIdx i origin target < hi := by
  have hpos : (0 : ℤ) < 2 ^ (origin - target).toNat := by positivity
  rw [targetIdx]
  generalize (2 : ℤ) ^ (origin - target).toNat = m at hpos ⊢
  rcases le_or_gt 1 i with hle | hlt
  · have hself := Int.ediv_le_self m (show 0 ≤ i - 1 by omega)
    have hnonneg := Int.ediv_nonneg (show 0 ≤ i - 1 by omega) hpos.le
    omega
  · have hneg := Int.ediv_neg_of_neg_of_pos (show i - 1 < 0 by omega) hpos
    have hself : i - 1 ≤ (i - 1) / m := (Int.le_ediv_iff_mul_le hpos).2 (by nlinarith)
    omega

/-- A side of a histogram, and the same in a schema that is not larger. -/
structure SideReduced (target : ℤ → ℤ) (spans spans' : List Span) (buckets buckets' : List ℚ) :
    Prop where
  agree : Agree spans' buckets'
  in_bounds : InBounds spans'
  mem_iff : ∀ i, i ∈ indices 0 spans' ↔ ∃ j ∈ indices 0 spans, target j = i
  sumOver_eq : ∀ p, sumOver p (entries spans' buckets') =
    sumOver (fun i => p (target i)) (entries spans buckets)

lemma SideReduced.sum_eq {target : ℤ → ℤ} {spans spans' : List Span} {buckets buckets' : List ℚ}
    (hr : SideReduced target spans spans' buckets buckets') (hagree : Agree spans buckets) :
    buckets'.sum = buckets.sum := by
  have := hr.sumOver_eq fun _ => true
  rwa [sumOver_true, sumOver_true, hr.agree.map_snd_entries, hagree.map_snd_entries] at this

/-- A side that is reduced by the code. -/
lemma reduceResolution_sideReduced (hagree : Agree spans buckets) (hin : InBounds spans)
    (origin target : ℤ) :
    ∃ spans' buckets', reduceResolution spans buckets origin target false =
      some (spans', buckets') ∧
      (∀ s ∈ spans', 0 < s.length) ∧
      SideReduced (targetIdx · origin target) spans spans' buckets buckets' := by
  obtain ⟨spans', buckets', heq, hagree', hpos, hentries⟩ :=
    reduceResolution_spec hagree origin target
  have hmem : ∀ i, i ∈ indices 0 spans' ↔ ∃ j ∈ indices 0 spans, targetIdx j origin target = i := by
    intro i
    rw [← hagree'.map_fst_entries, hentries, mem_reduceEntries, ← hagree.map_fst_entries]
    simp
  refine ⟨spans', buckets', heq, hpos, hagree', ?_, hmem, fun p => ?_⟩
  · refine inBounds_of_pos hagree'.offsets hpos fun i hi => ?_
    obtain ⟨j, hj, rfl⟩ := (hmem i).1 hi
    exact targetIdx_between (by norm_num) (by norm_num) (hin.index j hj) origin target
  · rw [hentries, sumOver_reduceEntries]

lemma sideReduced_refl (hagree : Agree spans buckets) (hin : InBounds spans)
    {target : ℤ → ℤ} (htarget : ∀ i, target i = i) :
    SideReduced target spans spans buckets buckets :=
  ⟨hagree, hin, fun i => by simp [htarget], fun p => by simp [htarget]⟩

/-- What `reduceTo` does. -/
structure ReducedTo (target : ℤ) (h h' : FloatHistogram) : Prop where
  schema_eq : h'.schema = min h.schema target
  zeroCount_eq : h'.zeroCount = h.zeroCount
  positive : SideReduced (targetIdx · h.schema target) h.positiveSpans h'.positiveSpans
    h.positiveBuckets h'.positiveBuckets
  negative : SideReduced (targetIdx · h.schema target) h.negativeSpans h'.negativeSpans
    h.negativeBuckets h'.negativeBuckets
  unchanged_or : h.schema ≤ target ∧ h' = h ∨ target < h.schema ∧ SpansNonempty h'

lemma reduceTo_spec (target : ℤ) (hw : WellFormed h) :
    ∃ h', h.reduceTo target = some h' ∧ ReducedTo target h h' := by
  by_cases hlt : target < h.schema
  · obtain ⟨ps, pb, hps, hppos, hpr⟩ :=
      reduceResolution_sideReduced hw.positive hw.positive_in h.schema target
    obtain ⟨ns, nb, hns, hnpos, hnr⟩ :=
      reduceResolution_sideReduced hw.negative hw.negative_in h.schema target
    refine ⟨{ h with
      schema := target, positiveSpans := ps, positiveBuckets := pb, negativeSpans := ns
      negativeBuckets := nb }, by simp [reduceTo, hlt, hps, hns], ?_⟩
    exact ⟨(min_eq_right hlt.le).symm, rfl, hpr, hnr, .inr ⟨hlt, hppos, hnpos⟩⟩
  · have hle := not_lt.1 hlt
    exact ⟨h, by simp [reduceTo, hlt], (min_eq_left hle).symm, rfl,
      sideReduced_refl hw.positive hw.positive_in (targetIdx_of_le hle),
      sideReduced_refl hw.negative hw.negative_in (targetIdx_of_le hle),
      .inl ⟨hle, rfl⟩⟩

/-! ### The sum -/

/-- Spans that have buckets. -/
lemma not_stuckAt_of_pos (hagree : Agree spans buckets)
    (hpos : ∀ s ∈ spans, 0 < s.length) (i : ℤ) : ¬StuckAt spans buckets i := by
  rintro ⟨rfl, hi⟩
  obtain _ | ⟨s, ss⟩ := spans
  · simp at hi
  have hlength := hagree.length_eq
  have hs := hpos s List.mem_cons_self
  simp at hlength
  omega

/-- There is a window around 0 for indices in bounds. -/
lemma fitInWindow {spansA spansB : List Span} (hA : InBounds spansA) (hB : InBounds spansB) :
    FitInWindow spansA spansB := by
  have hin : ∀ {i : ℤ}, -2 ^ 30 < i ∧ i < 2 ^ 30 → InWindow (-2 ^ 30 + 1) i := fun h =>
    ⟨by omega, by omega⟩
  exact ⟨-2 ^ 30 + 1, by norm_num [IsWindow], ⟨hA.offset, fun i hi => hin (hA.first i hi),
    fun i hi => hin (hA.index i hi)⟩, fun i hi => hin (hB.index i hi)⟩

/-- A side of `addAllBuckets`. -/
lemma addBuckets_side (hh : WellFormed h) (hother : WellFormed other) (negative : Bool)
    {spansA spansA' : List Span} {bucketsA bucketsA' : List ℚ} {spansB spansB' : List Span}
    {bucketsB bucketsB' : List ℚ}
    (hA : SideReduced (targetIdx · h.schema other.schema) spansA spansA' bucketsA bucketsA')
    (hagree : Agree spansA bucketsA)
    (hB : SideReduced (targetIdx · other.schema h.schema) spansB spansB' bucketsB bucketsB') :
    BlockedSide h other (ord h.zeroThreshold) spansA' bucketsA' spansB ∧
        addBuckets (sumSchema h other) h.zeroThreshold negative spansA' bucketsA'
          spansB' bucketsB' =
          none ∨
      ¬BlockedSide h other (ord h.zeroThreshold) spansA' bucketsA' spansB ∧ ∃ spans buckets,
        addBuckets (sumSchema h other) h.zeroThreshold negative spansA' bucketsA'
          spansB' bucketsB' =
          some (spans, buckets) ∧
        buckets.sum = bucketsA.sum + signed negative
          (sumOver (fun i => !decide (Skipped h other (ord h.zeroThreshold) i))
            (entries spansB bucketsB)) := by
  have hblocked : BlockedSide h other (ord h.zeroThreshold) spansA' bucketsA' spansB ↔
      ∃ i, StuckAt spansA' bucketsA' i ∧
        IsLeast (addedIndices (sumSchema h other) (ord h.zeroThreshold) spansB') i := by
    simp only [BlockedSide, addedIndices, hB.mem_iff, sumIdx]
  have hsum : sumOver (fun i => ord h.zeroThreshold < upper (sumSchema h other) i)
      (entries spansB' bucketsB') =
        sumOver (fun i => !decide (Skipped h other (ord h.zeroThreshold) i))
          (entries spansB bucketsB) := by
    rw [hB.sumOver_eq]
    congr 1
    funext i
    simp only [Skipped, sumIdx, ← not_lt, decide_not, Bool.not_not]
  rw [hblocked, ← hA.sum_eq hagree, ← hsum]
  exact addBuckets_spec (isExponentialSchema_sumSchema hh hother) hh.threshold negative
    hA.agree hB.agree (fitInWindow hA.in_bounds hB.in_bounds)

lemma addAllBuckets_spec (hh : WellFormed h) (hother : WellFormed other) (negative : Bool) :
    Blocked h other (ord h.zeroThreshold) ∧ addAllBuckets negative h other = none ∨
      ¬Blocked h other (ord h.zeroThreshold) ∧ ∃ h', addAllBuckets negative h other = some h' ∧
        h'.total = h.total + signed negative
          (sumOver (fun i => !decide (Skipped h other (ord h.zeroThreshold) i))
            other.allEntries) := by
  have hcustom := hh.usesCustomBuckets_eq
  obtain ⟨h', hreduce, hr⟩ := reduceTo_spec other.schema hh
  obtain ⟨other', hreduce', hr'⟩ := reduceTo_spec h.schema hother
  have hblocked : Blocked h other (ord h.zeroThreshold) ↔
      BlockedSide h other (ord h.zeroThreshold) h'.positiveSpans h'.positiveBuckets
          other.positiveSpans ∨
        BlockedSide h other (ord h.zeroThreshold) h'.negativeSpans h'.negativeBuckets
          other.negativeSpans := by
    rcases hr.unchanged_or with ⟨hle, rfl⟩ | ⟨hlt, hpos, hneg⟩
    · simp [Blocked, hle]
    have hp := not_stuckAt_of_pos hr.positive.agree hpos
    have hn := not_stuckAt_of_pos hr.negative.agree hneg
    simp [Blocked, BlockedSide, hlt, hp, hn]
  have hpositive := addBuckets_side hh hother negative hr.positive hh.positive hr'.positive
  have hnegative := addBuckets_side hh hother negative hr.negative hh.negative hr'.negative
  have hschema : h'.schema = sumSchema h other := hr.schema_eq
  rw [hblocked]
  simp only [addAllBuckets, hcustom, Bool.false_eq_true, if_false, hreduce, hreduce',
    bind_eq_bind, bind_some, hschema]
  rcases hpositive with ⟨hp, heqp⟩ | ⟨hp, ps, pb, heqp, hsump⟩
  · exact .inl ⟨.inl hp, by rw [heqp]; rfl⟩
  rcases hnegative with ⟨hn, heqn⟩ | ⟨hn, ns, nb, heqn, hsumn⟩
  · exact .inl ⟨.inr hn, by rw [heqp, heqn]; rfl⟩
  refine .inr ⟨by simp [hp, hn], _, by rw [heqp, heqn]; rfl, ?_⟩
  simp only [total, hr.zeroCount_eq, hsump, hsumn, allEntries, sumOver_append, signed_add,
    hother.positiveEntries_eq, hother.negativeEntries_eq]
  ring

/-- The total is right exactly if the buckets of the other histogram are `Partitioned`. -/
lemma merge_total_iff (negative : Bool) (hh : WellFormed h) (hother : Valid other) {fuel : ℕ}
    (hfuel : reconcileFuel h other ≤ fuel) :
    (∃ h', merge negative fuel h other = some h' ∧
        h'.total = h.total + signed negative other.total) ↔
      Partitioned h other := by
  obtain ⟨h₁, otherZeroCount, hreconcile, hr⟩ :=
    reconcileZeroBuckets_spec hh hother.toWellFormed hfuel
  set t := ord h₁.zeroThreshold
  -- The receiver with the zero count of both.
  set h₂ : FloatHistogram := { h₁ with
    zeroCount := h₁.zeroCount + signed negative otherZeroCount
    count := h₁.count + signed negative other.count
    sum := h₁.sum + signed negative other.sum }
  have hmerge : merge negative fuel h other = addAllBuckets negative h₂ other := by
    simp only [merge, hh.usesCustomBuckets_eq, Bool.false_eq_true, if_false, hreconcile,
      map_some, bind_eq_bind, bind_some]
    rfl
  have hw := hr.wellFormed
  have hw₂ : WellFormed h₂ := ⟨⟨hw.schema, hw.positive, hw.negative⟩, hw.threshold,
    hw.positive_in, hw.negative_in⟩
  have htotal : h₂.total = h.total + signed negative otherZeroCount := by
    rw [← hr.total_eq]
    simp only [total, h₂]
    ring
  have hskipped : ∀ i, Skipped h₂ other t i ↔ Skipped h other t i := by
    intro i
    simp only [Skipped, sumSchema, sumIdx, h₂, hr.schema_eq]
  have hblocked : Blocked h₂ other t ↔ t = ord h.zeroThreshold ∧ Blocked h other t := by
    rcases hr.unchanged_or with heq | ⟨hlt, hpos, hneg⟩
    · have ht : t = ord h.zeroThreshold := by rw [← heq]
      simp only [ht, true_and, Blocked, BlockedSide, sumSchema, sumIdx, h₂, heq]
    have hp := not_stuckAt_of_pos hr.wellFormed.positive hpos
    have hn := not_stuckAt_of_pos hr.wellFormed.negative hneg
    have ht : t ≠ ord h.zeroThreshold := hlt.ne'
    simp [Blocked, BlockedSide, ht, h₂, hp, hn]
  have hpartitioned : Partitioned h other ↔
      (∀ e ∈ other.allEntries, e.2 ≠ 0 → (Zeroed other t e.1 ↔ Skipped h other t e.1)) ∧
        ¬(t = ord h.zeroThreshold ∧ Blocked h other t) := by
    constructor
    · rintro ⟨t', ht', hpart⟩
      obtain rfl : t = t' := hr.isLeast.unique ht'
      exact hpart
    · exact fun hpart => ⟨t, hr.isLeast, hpart⟩
  rw [hpartitioned, ← hblocked, ← contribution_eq_total_iff hh hother t, hmerge]
  rcases addAllBuckets_spec hw₂ hother.toWellFormed negative with
    ⟨hb, hnone⟩ | ⟨hb, h', hsome, hsum⟩
  · change Blocked h₂ other t at hb
    simp [hnone, hb]
  change ¬Blocked h₂ other t at hb
  change h'.total = h₂.total + signed negative
    (sumOver (fun i => !decide (Skipped h₂ other t i)) other.allEntries) at hsum
  simp only [hskipped] at hsum
  rw [htotal, add_assoc, ← signed_add, hr.otherZeroCount_eq] at hsum
  simp only [hsome, hb, not_false_eq_true, and_true, some.injEq, exists_eq_left', hsum]
  rw [add_right_inj, (signed_injective negative).eq_iff]

/-- **No observation is lost or counted twice** by `Add` and `Sub`, exactly if each populated bucket
of the other histogram goes either into the zero bucket or into another one. -/
theorem add_sub_total_iff (hh : Valid h) (hother : Valid other) {fuel : ℕ}
    (hfuel : reconcileFuel h other ≤ fuel) :
    ((∃ h', add fuel h other = some (.ok (h', other)) ∧ h'.total = h.total + other.total) ↔
        Partitioned h other) ∧
      ((∃ h', sub fuel h other = some (.ok (h', other)) ∧ h'.total = h.total - other.total) ↔
        Partitioned h other) := by
  have hcheck : checkCompatible h other = .ok () := by
    simp [checkCompatible, hh.usesCustomBuckets_eq, hother.usesCustomBuckets_eq]
  constructor
  · -- The hint of the sum does not matter for the counts.
    have hmerge := merge_total_iff false
      (h := { h with counterResetHint := addHint h.counterResetHint other.counterResetHint })
      ⟨⟨hh.schema, hh.positive, hh.negative⟩, hh.threshold, hh.positive_in,
        hh.negative_in⟩ hother hfuel
    refine Iff.trans ?_ hmerge
    simp [add, hcheck, signed, total]
  · refine Iff.trans ?_ (merge_total_iff true hh.toWellFormed hother hfuel)
    simp [sub, hcheck, signed, sub_eq_add_neg]

/-- Three observations in the bucket from 0.5 to 0.7071067811865475. -/
def fine : FloatHistogram :=
  ⟨.unknownCounterReset, 1, 0, 0, 3, 0, [⟨-1, 1⟩], [], [3], [], []⟩

attribute [local simp] fine coarse

lemma inBounds_nil : InBounds [] :=
  ⟨by simp, by simp, by simp [indices]⟩

lemma valid_coarse {zeroThreshold : BitVec 64} (ht : IsThreshold zeroThreshold) :
    Valid (coarse zeroThreshold) :=
  ⟨⟨exponential_coarse _, ht, inBounds_nil, inBounds_nil⟩, by simp, by simp⟩

lemma valid_fine : Valid fine :=
  ⟨⟨⟨by decide, ⟨rfl, by simp [NonnegOffsets]⟩, rfl, trivial⟩, ⟨by decide⟩, ⟨by decide, by decide,
    by decide⟩, inBounds_nil⟩, by simp, by simp⟩

lemma eq_of_mem_fine {e : ℤ × ℚ} (he : e ∈ fine.allEntries) : e = (-1, 3) := by
  rw [allEntries, valid_fine.positiveEntries_eq, valid_fine.negativeEntries_eq] at he
  simpa [entries, indices, indexRange] using he

/-- With a threshold of 0.75, the three observations go into the zero bucket. They also go into the
bucket from 0.5 to 1. -/
theorem add_counts_twice : Valid (coarse 0x3FE8000000000000) ∧ Valid fine ∧
    ∃ h', add (reconcileFuel (coarse 0x3FE8000000000000) fine) (coarse 0x3FE8000000000000) fine =
        some (.ok (h', fine)) ∧
      h'.zeroCount = 3 ∧ h'.positiveBuckets = [3] ∧
      h'.total ≠ (coarse 0x3FE8000000000000).total + fine.total := by
  refine ⟨valid_coarse ⟨by decide⟩, valid_fine, { coarse 0x3FE8000000000000 with
      zeroCount := 3, count := 3, positiveSpans := [⟨0, 1⟩], positiveBuckets := [3] }, ?_⟩
  decide +kernel

/-- With a threshold of 1, all goes into the zero bucket. -/
theorem add_sub_total_one :
    ∃ h', add (reconcileFuel (coarse 0x3FF0000000000000) fine) (coarse 0x3FF0000000000000) fine =
        some (.ok (h', fine)) ∧
      h'.total = (coarse 0x3FF0000000000000).total + fine.total := by
  refine (add_sub_total_iff (valid_coarse ⟨by decide⟩) valid_fine (le_refl _)).1.2 ?_
  refine ⟨ord 0x3FF0000000000000, ⟨⟨le_refl _, by decide, .inl rfl, .inr ?_⟩, fun u hu => hu.1⟩,
    ?_, ?_⟩
  · rintro ⟨e, he, -, -, hlt⟩
    obtain rfl := eq_of_mem_fine he
    revert hlt
    decide +kernel
  · intro e he _
    obtain rfl := eq_of_mem_fine he
    decide +kernel
  · rintro ⟨-, -, ⟨i, ⟨-, hi⟩, -⟩ | ⟨i, ⟨-, hi⟩, -⟩⟩ <;> simp at hi

end FloatHistogram

end Prometheus.Histogram
