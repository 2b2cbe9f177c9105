import Prometheus.Histogram.Bounds
import Prometheus.Histogram.Spans

/-!
# Reducing the resolution

`reduceResolution` of `model/histogram/generic.go`, for counts and for deltas between them.

The buckets that result are `reduceEntries` of those before (`reduceResolution_spec`): the count at
an index of the target schema is that of all the buckets that go into it. Up to a bound of the
target schema, there are as many observations as before (`reduceResolution_bounds`). The code's
variant in place is not told apart from the one that allocates: a span is written only after one has
been read, and so is a bucket. Indices and offsets are exact, as those of the code are where its
`int32`s do not overflow.
-/

namespace Prometheus.Histogram

open List

variable {C : Type} [AddCommGroup C] {s : Span}

/-! ### The code -/

/-- The bucket index in the target schema for the given bucket index in the original schema. -/
def targetIdx (idx originSchema targetSchema : ℤ) : ℤ :=
  (idx - 1) / 2 ^ (originSchema - targetSchema).toNat + 1

/-- The spans and buckets in the target schema, and the variables of the loop. -/
structure Reduction (C : Type) where
  targetSpans : List Span
  targetBuckets : List C
  lastTargetBucketIdx : ℤ
  lastBucketCount : C
  lastTargetBucketCount : C

/-- A turn of the loop, for the bucket `b` that goes into `targetBucketIdx`. -/
def Reduction.add (deltaBuckets : Bool) (r : Reduction C) (targetBucketIdx : ℤ) (b : C) :
    Reduction C :=
  let lastBucketCount := if deltaBuckets then r.lastBucketCount + b else r.lastBucketCount
  if r.targetSpans.length = 0 then
    -- This is the first span in the targetSpans.
    ⟨[⟨targetBucketIdx, 1⟩], r.targetBuckets ++ [b], targetBucketIdx, b, b⟩
  else if r.lastTargetBucketIdx = targetBucketIdx then
    -- The current bucket has to be merged into the same target bucket as the previous bucket.
    if deltaBuckets then
      { r with
        targetBuckets := r.targetBuckets.modifyLast (· + lastBucketCount)
        lastBucketCount := lastBucketCount
        lastTargetBucketCount := r.lastTargetBucketCount + lastBucketCount }
    else { r with targetBuckets := r.targetBuckets.modifyLast (· + b) }
  else
    let appended := if deltaBuckets then
        { r with
          targetBuckets := r.targetBuckets ++ [lastBucketCount - r.lastTargetBucketCount]
          lastBucketCount := lastBucketCount
          lastTargetBucketCount := lastBucketCount }
      else { r with targetBuckets := r.targetBuckets ++ [b] }
    if r.lastTargetBucketIdx + 1 = targetBucketIdx then
      -- The current bucket has to go into a new target bucket, and that bucket is next to the
      -- previous target bucket, so we add it to the current target span.
      { appended with
        targetSpans := r.targetSpans.modifyLast fun s => { s with length := s.length + 1 }
        lastTargetBucketIdx := r.lastTargetBucketIdx + 1 }
    else if r.lastTargetBucketIdx + 1 < targetBucketIdx then
      -- The current bucket has to go into a new target bucket, and that bucket is separated by a
      -- gap from the previous target bucket, so we need to add a new target span.
      { appended with
        targetSpans := r.targetSpans ++ [⟨targetBucketIdx - r.lastTargetBucketIdx - 1, 1⟩]
        lastTargetBucketIdx := targetBucketIdx }
    else r

/-- The loops over the spans and the buckets in them. -/
def Reduction.run (deltaBuckets : Bool) (target : ℤ → ℤ) :
    List ℤ → List C → Reduction C → Option (Reduction C)
  | [], _, r => some r
  | _ :: _, [], _ => none
  | i :: is, b :: bs, r => run deltaBuckets target is bs (r.add deltaBuckets (target i) b)

/-- `reduceResolution`. Without a result, there are fewer buckets than in the spans. -/
def reduceResolution (originSpans : List Span) (originBuckets : List C)
    (originSchema targetSchema : ℤ) (deltaBuckets : Bool) : Option (List Span × List C) :=
  (Reduction.run deltaBuckets (targetIdx · originSchema targetSchema) (indices 0 originSpans)
    originBuckets ⟨[], [], 0, 0, 0⟩).map fun r => (r.targetSpans, r.targetBuckets)

open Reduction

/-! ### Counts -/

attribute [local simp] NonnegOffsets indices endIdx

lemma targetIdx_mono (originSchema targetSchema : ℤ) :
    Monotone (targetIdx · originSchema targetSchema) := by
  intro i j hij
  have hpos : (0 : ℤ) < 2 ^ (originSchema - targetSchema).toNat := by positivity
  exact Int.add_le_add_right (Int.ediv_le_ediv hpos (by omega)) 1

variable (es : List (ℤ × C))

/-- A count for the index `t`, which is not before the others: it goes into the last bucket or into
a new one. -/
def putLast (t : ℤ) (b : C) : List (ℤ × C) :=
  match es.getLast? with
  | none => [(t, b)]
  | some (i, c) => if i = t then es.dropLast ++ [(t, c + b)] else es ++ [(t, b)]

lemma putLast_concat (i t : ℤ) (c b : C) : putLast (es ++ [(i, c)]) t b =
      if i = t then es ++ [(t, c + b)] else es ++ [(i, c)] ++ [(t, b)] := by
  simp [putLast]

lemma sumOver_putLast (p : ℤ → Bool) (es : List (ℤ × C)) (t : ℤ) (b : C) :
    sumOver p (putLast es t b) = sumOver p (es ++ [(t, b)]) := by
  rcases eq_nil_or_concat es with rfl | ⟨es, ⟨i, c⟩, rfl⟩
  · rfl
  rw [concat_eq_append, putLast_concat]
  split_ifs with h
  · subst h
    simp only [sumOver_append, sumOver_cons, sumOver_nil]
    split_ifs <;> abel
  · rfl

variable {t : ℤ} {es : List (ℤ × C)}

lemma mem_map_fst_putLast {i : ℤ} {b : C} :
    i ∈ (putLast es t b).map Prod.fst ↔ i ∈ es.map Prod.fst ∨ i = t := by
  rcases eq_nil_or_concat es with rfl | ⟨es, ⟨j, c⟩, rfl⟩
  · simp [putLast]
  rw [concat_eq_append, putLast_concat]
  split_ifs with h
  · subst h
    simp
  · simp [or_assoc]

/-- What has been built: the last bucket is for `lastTargetBucketIdx`. -/
structure ReduceInv (r : Reduction C) : Prop where
  agree : Agree r.targetSpans r.targetBuckets
  pos : ∀ s ∈ r.targetSpans, 0 < s.length
  last : r.targetSpans = [] ∨ endIdx 0 r.targetSpans = r.lastTargetBucketIdx + 1

/-- `r'` is `r` with a count for the index `t`. -/
structure Reduction.Put (r r' : Reduction C) (t : ℤ) (b : C) : Prop where
  inv : ReduceInv r'
  last_eq : r'.lastTargetBucketIdx = t
  entries_eq : entries r'.targetSpans r'.targetBuckets =
    putLast (entries r.targetSpans r.targetBuckets) t b

variable {spans : List Span} {buckets : List C}

omit [AddCommGroup C] in
/-- The last bucket is the one before the end of the last span. -/
lemma entries_concat {b : C}
    (hs : 0 < s.length) (h : countSpans (spans ++ [s]) = (buckets ++ [b]).length) :
    ∃ es, (∀ b', entries (spans ++ [s]) (buckets ++ [b']) =
      es ++ [(endIdx 0 (spans ++ [s]) - 1, b')]) := by
  obtain ⟨n, hn⟩ := Nat.exists_eq_succ_of_ne_zero hs.ne'
  set a := endIdx 0 spans + s.offset
  have hindices : indices 0 (spans ++ [s]) =
      (indices 0 spans ++ indexRange a n) ++ [endIdx 0 (spans ++ [s]) - 1] := by
    rw [indices_append, endIdx_append]
    simp [hn, Nat.succ_eq_add_one, indexRange_succ, a]
    ring
  refine ⟨(indices 0 spans ++ indexRange a n).zip buckets, fun b' => ?_⟩
  rw [entries, hindices, zip_append]
  · rfl
  · simp [hn] at h ⊢
    omega

variable {spans' : List Span}

omit [AddCommGroup C] in
/-- A bucket after the others. -/
lemma entries_of_indices (b : C)
    (h : countSpans spans = buckets.length) (hindices : indices 0 spans' = indices 0 spans ++ [t]) :
    countSpans spans' = (buckets ++ [b]).length ∧
      entries spans' (buckets ++ [b]) = entries spans buckets ++ [(t, b)] := by
  constructor
  · rw [← length_indices 0, hindices, length_append, length_indices, h]
    simp
  · rw [entries, hindices, zip_append (by rw [length_indices, h])]
    rfl

lemma nonnegOffsets_concat (h : NonnegOffsets spans)
    (hs : spans = [] ∨ 0 ≤ s.offset) : NonnegOffsets (spans ++ [s]) := by
  cases spans with
  | nil => simp
  | cons t ts =>
    have := hs.resolve_left (by simp)
    simpa [or_imp, forall_and] using ⟨h, this⟩

lemma nonnegOffsets_lengthen {ss : List Span} (n : ℕ)
    (h : NonnegOffsets (ss ++ [s])) : NonnegOffsets (ss ++ [{ s with length := n }]) := by
  cases ss with
  | nil => simp
  | cons a as =>
    simp only [NonnegOffsets, cons_append, forall_mem_append, forall_mem_singleton] at h ⊢
    exact h

variable {r : Reduction C}

lemma ReduceInv.add_first (h : ReduceInv r) (hr : r.targetSpans = [])
    (b : C) : r.Put (r.add false t b) t b := by
  have hb : r.targetBuckets = [] := by
    have := h.agree.length_eq
    rw [hr] at this
    exact length_eq_zero_iff.1 this.symm
  have hadd : r.add false t b = ⟨[⟨t, 1⟩], [b], t, b, b⟩ := by simp [add, hr, hb]
  rw [hadd]
  refine ⟨⟨⟨rfl, by simp⟩, by simp, by simp⟩, rfl, ?_⟩
  simp [hr, entries, indexRange, putLast]

section Nonempty

variable {ss : List Span} {s : Span} {buckets : List C} {last : ℤ} {cnt tcnt : C}
  (h : ReduceInv ⟨ss ++ [s], buckets, last, cnt, tcnt⟩) {t : ℤ} (b : C)

include h

omit [AddCommGroup C] in
/-- The last bucket. -/
lemma ReduceInv.entries_eq : ∃ bs x es, buckets = bs ++ [x] ∧
    ∀ x', entries (ss ++ [s]) (bs ++ [x']) = es ++ [(last, x')] := by
  have hlen := h.agree.length_eq
  have hs : 0 < s.length := h.pos s (by simp)
  have hlast : endIdx 0 (ss ++ [s]) = last + 1 := h.last.resolve_left (by simp)
  rcases eq_nil_or_concat buckets with rfl | ⟨bs, x, rfl⟩
  · simp at hlen
    omega
  rw [concat_eq_append] at hlen ⊢
  obtain ⟨es, hes⟩ := entries_concat hs hlen
  exact ⟨bs, x, es, rfl, fun x' => by rw [hes, hlast, add_sub_cancel_right]⟩

lemma ReduceInv.add_same (hlast : last = t) :
    Reduction.Put ⟨ss ++ [s], buckets, last, cnt, tcnt⟩
      (add false ⟨ss ++ [s], buckets, last, cnt, tcnt⟩ t b) t b := by
  obtain ⟨bs, x, es, rfl, hes⟩ := h.entries_eq
  subst hlast
  have hadd : add false ⟨ss ++ [s], bs ++ [x], last, cnt, tcnt⟩ last b =
      ⟨ss ++ [s], bs ++ [x + b], last, cnt, tcnt⟩ := by
    simp [add, modifyLast_concat]
  rw [hadd]
  refine ⟨⟨⟨by simpa using h.agree.length_eq, h.agree.offsets⟩, h.pos, h.last⟩, rfl, ?_⟩
  simp only [hes, putLast_concat, if_true]

/-- A new bucket, in spans that are those before with one more index. -/
lemma ReduceInv.put_new (hne : last ≠ t)
    (hindices : indices 0 spans' = indices 0 (ss ++ [s]) ++ [t]) (hoff : NonnegOffsets spans')
    (hpos : ∀ s ∈ spans', 0 < s.length) (hend : endIdx 0 spans' = t + 1) :
    Reduction.Put ⟨ss ++ [s], buckets, last, cnt, tcnt⟩
      ⟨spans', buckets ++ [b], t, cnt, tcnt⟩ t b := by
  obtain ⟨hlen, hentries⟩ := entries_of_indices b h.agree.length_eq hindices
  refine ⟨⟨⟨hlen, hoff⟩, hpos, .inr hend⟩, rfl, ?_⟩
  obtain ⟨bs, x, es, rfl, hes⟩ := h.entries_eq
  simp only [hentries, hes, putLast_concat, if_neg hne]

lemma ReduceInv.add_next (hnext : last + 1 = t) :
    Reduction.Put ⟨ss ++ [s], buckets, last, cnt, tcnt⟩
      (add false ⟨ss ++ [s], buckets, last, cnt, tcnt⟩ t b) t b := by
  have hne : last ≠ t := by omega
  have hlast : endIdx 0 (ss ++ [s]) = last + 1 := h.last.resolve_left (by simp)
  have hadd : add false ⟨ss ++ [s], buckets, last, cnt, tcnt⟩ t b =
      ⟨ss ++ [{ s with length := s.length + 1 }], buckets ++ [b], t, cnt, tcnt⟩ := by
    simp [add, modifyLast_concat, hne, hnext]
  rw [hadd]
  refine h.put_new b hne ?_ (nonnegOffsets_lengthen _ h.agree.offsets) ?_ ?_
  · rw [← hnext, ← hlast]
    simp [indices_append, endIdx_append, indexRange_succ]
  · intro u hu
    rcases mem_append.1 hu with hu | hu
    · exact h.pos u (by simp [hu])
    · simp at hu
      simp [hu]
  · rw [endIdx_append] at hlast ⊢
    simp only [endIdx, Nat.cast_add, Nat.cast_one] at hlast ⊢
    omega

lemma ReduceInv.add_gap (hgap : last + 1 < t) :
    Reduction.Put ⟨ss ++ [s], buckets, last, cnt, tcnt⟩
      (add false ⟨ss ++ [s], buckets, last, cnt, tcnt⟩ t b) t b := by
  have hne : last ≠ t := by omega
  have hlast : endIdx 0 (ss ++ [s]) = last + 1 := h.last.resolve_left (by simp)
  have hadd : add false ⟨ss ++ [s], buckets, last, cnt, tcnt⟩ t b =
      ⟨ss ++ [s] ++ [⟨t - last - 1, 1⟩], buckets ++ [b], t, cnt, tcnt⟩ := by
    simp [add, hne, hgap.ne, hgap]
  rw [hadd]
  refine h.put_new b hne ?_ (nonnegOffsets_concat h.agree.offsets
    (.inr (by simp only; omega))) ?_ ?_
  · rw [indices_append, hlast]
    simp [indexRange]
  · intro u hu
    rcases mem_append.1 hu with hu | hu
    · exact h.pos u hu
    · simp at hu
      simp [hu]
  · rw [endIdx_append, hlast]
    simp

end Nonempty

lemma ReduceInv.add (h : ReduceInv r)
    (ht : r.targetSpans = [] ∨ r.lastTargetBucketIdx ≤ t) (b : C) :
    r.Put (r.add false t b) t b := by
  obtain ⟨spans, buckets, last, cnt, tcnt⟩ := r
  rcases eq_nil_or_concat spans with rfl | ⟨ss, s, rfl⟩
  · exact h.add_first rfl b
  rw [concat_eq_append] at *
  have hle : last ≤ t := ht.resolve_left (by simp)
  rcases lt_trichotomy (last + 1) t with hgap | hnext | hle'
  · exact h.add_gap b hgap
  · exact h.add_next b hnext
  · exact h.add_same b (by omega)

variable {target : ℤ → ℤ}

lemma ReduceInv.run (hmono : Monotone target) {is : List ℤ} {bs : List C}
    (hlen : is.length = bs.length) (his : is.Pairwise (· < ·)) (h : ReduceInv r)
    (hr : r.targetSpans = [] ∨ ∀ i ∈ is, r.lastTargetBucketIdx ≤ target i) :
    ∃ r', r.run false target is bs = some r' ∧ ReduceInv r' ∧
      entries r'.targetSpans r'.targetBuckets =
        (is.zip bs).foldl (fun es e => putLast es (target e.1) e.2)
          (entries r.targetSpans r.targetBuckets) := by
  induction is generalizing bs r with
  | nil => exact ⟨r, by simp [run], h, rfl⟩
  | cons i is ih =>
    cases bs with
    | nil => simp at hlen
    | cons b bs =>
      obtain ⟨hi, his⟩ := pairwise_cons.1 his
      have hput := h.add (hr.imp_right fun hr => hr i (by simp)) b
      obtain ⟨r', hrun, hinv, hentries⟩ := ih (by simpa using hlen) his hput.inv
        (.inr fun j hj => by rw [hput.last_eq]; exact hmono (hi j hj).le)
      refine ⟨r', by simpa [run] using hrun, hinv, ?_⟩
      rw [hentries, hput.entries_eq]
      rfl

variable (target : ℤ → ℤ)

/-- The entries in the target schema. -/
def reduceEntries (es : List (ℤ × C)) : List (ℤ × C) :=
  es.foldl (fun es e => putLast es (target e.1) e.2) []

/-- The count of the buckets in `p` is that of the buckets that go into them. -/
lemma sumOver_reduceEntries (p : ℤ → Bool) (es : List (ℤ × C)) :
    sumOver p (reduceEntries target es) = sumOver (fun i => p (target i)) es := by
  have h : ∀ es₀ : List (ℤ × C),
      sumOver p (es.foldl (fun es e => putLast es (target e.1) e.2) es₀) =
        sumOver p es₀ + sumOver (fun i => p (target i)) es := by
    induction es with
    | nil => simp
    | cons e es ih =>
      intro es₀
      rw [foldl_cons, ih, sumOver_putLast, sumOver_append, sumOver_cons, sumOver_cons,
        sumOver_nil, add_zero, add_assoc]
  rw [reduceEntries, h, sumOver_nil, zero_add]

lemma mem_reduceEntries {i : ℤ} :
    i ∈ (reduceEntries target es).map Prod.fst ↔ ∃ e ∈ es, target e.1 = i := by
  have h : ∀ es₀ : List (ℤ × C),
      i ∈ (es.foldl (fun es e => putLast es (target e.1) e.2) es₀).map Prod.fst ↔
        i ∈ es₀.map Prod.fst ∨ ∃ e ∈ es, target e.1 = i := by
    induction es with
    | nil => simp
    | cons e es ih =>
      intro es₀
      rw [foldl_cons, ih, mem_map_fst_putLast, or_assoc]
      simp [eq_comm]
  rw [reduceEntries, h]
  simp

theorem reduceResolution_spec (h : Agree spans buckets) (originSchema targetSchema : ℤ) :
    ∃ spans' buckets', reduceResolution spans buckets originSchema targetSchema false =
        some (spans', buckets') ∧ Agree spans' buckets' ∧ (∀ s ∈ spans', 0 < s.length) ∧
      entries spans' buckets' =
        reduceEntries (targetIdx · originSchema targetSchema) (entries spans buckets) := by
  have hinit : ReduceInv (⟨[], [], 0, 0, 0⟩ : Reduction C) :=
    ⟨⟨rfl, trivial⟩, by simp, .inl rfl⟩
  obtain ⟨r, hrun, hinv, hentries⟩ := hinit.run (targetIdx_mono originSchema targetSchema)
    (by rw [length_indices, h.length_eq]) (pairwise_indices 0 h.offsets) (.inl rfl)
  exact ⟨r.targetSpans, r.targetBuckets, by simp [reduceResolution, hrun], hinv.agree, hinv.pos,
    hentries⟩

/-- **The resolution is reduced at bounds**: the bounds in the target schema are some of those in
the original one, and the number of observations up to each of them is kept. -/
theorem reduceResolution_bounds (h : Agree spans buckets) {origin target : ℤ}
    (hle : target ≤ origin)
    (hmax : origin ≤ 8) :
    ∃ spans' buckets', reduceResolution spans buckets origin target false =
      some (spans', buckets') ∧
      Agree spans' buckets' ∧ ∀ i, let i' := i * 2 ^ (origin - target).toNat
        getBoundExponential i target = getBoundExponential i' origin ∧
          sumOver (· ≤ i) (entries spans' buckets') = sumOver (· ≤ i') (entries spans buckets) := by
  obtain ⟨spans', buckets', heq, hagree, -, hentries⟩ := reduceResolution_spec h origin target
  refine ⟨spans', buckets', heq, hagree, fun i => ⟨(getBoundExponential_scale hle hmax i).symm, ?_⟩⟩
  rw [hentries, sumOver_reduceEntries]
  congr 1
  funext idx
  rw [decide_eq_decide, targetIdx, Int.add_one_le_iff, Int.ediv_lt_iff_lt_mul (by positivity),
    Int.sub_one_lt_iff]

theorem reduceResolution_bounds_three :
    ∃ r, reduceResolution [⟨0, 3⟩] ([1, 2, 4] : List ℤ) 1 0 false = some r := by
  have h : Agree [⟨0, 3⟩] ([1, 2, 4] : List ℤ) := ⟨rfl, by simp⟩
  obtain ⟨_, _, heq, -⟩ := reduceResolution_bounds h zero_le_one (by decide : (1 : ℤ) ≤ 8)
  exact ⟨_, heq⟩

end Prometheus.Histogram
