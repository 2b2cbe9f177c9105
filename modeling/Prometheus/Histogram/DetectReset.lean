import Prometheus.Histogram.ZeroBucket

/-!
# Counter resets

`FloatHistogram.DetectReset` of `model/histogram/float_histogram.go`: a histogram comes with a
counter reset if some count is smaller than in the histogram before it, for buckets that both of
them have after the one before has been brought to the schema and the zero threshold of the other.

The iterators that the code compares bucket by bucket are the lists of what they go through. Where
buckets of a schema are merged to one of the target schema, the iterator does so on its way. There
is a result (`zeroCountForLargerThreshold_isSome`), unless spans and buckets do not agree.
-/

namespace Prometheus.Histogram.FloatHistogram

open Float64 GoInt

/-- The loop of `floatBucketIterator.Next` that merges the buckets of one bucket of the target
schema. -/
def mergeBuckets (target : ℤ → ℤ) : List (ℤ × ℚ) → List (ℤ × ℚ)
  | [] => []
  | (i, c) :: es =>
    match mergeBuckets target es with
    | [] => [(target i, c)]
    | (j, d) :: es => if target i = j then (j, c + d) :: es else (target i, c) :: (j, d) :: es

/-- What a `floatBucketIterator` goes through. Buckets that end at the start value or before it are
skipped, until one is reached that does not. -/
def floatBuckets (h : FloatHistogram) (positive : Bool) (absoluteStartValue : BitVec 64)
    (targetSchema : ℤ) : List (ℤ × ℚ) :=
  let entries := if positive then h.positiveEntries else h.negativeEntries
  let entries :=
    if h.schema = targetSchema then entries
    else mergeBuckets (fun i => int32 (targetIdx (int32 (i - 1) + 1) h.schema targetSchema)) entries
  if Float64.eq absoluteStartValue 0 ∨ ¬isExponentialSchema targetSchema then entries
  else entries.dropWhile fun e => le (getBoundExponential e.1 targetSchema) absoluteStartValue

/-- The loops of `detectReset`. Where the current buckets come to an end, the code looks at no other
bucket of the previous ones than the one it is at. -/
def detectResetLoop : List (ℤ × ℚ) → List (ℤ × ℚ) → Bool
  | _, [] => false
  | curr, (i, c) :: prev =>
    -- Forward to the bucket corresponding to the previous one.
    match curr.dropWhile fun e => e.1 < i with
    | [] => c ≠ 0
    | (j, d) :: curr =>
      if j > i then
        if c ≠ 0 then true else detectResetLoop ((j, d) :: curr) prev
      else if d < c then true
      else detectResetLoop ((j, d) :: curr) prev

/-- Enough turns to count what is in a larger zero bucket: each turn but the last one has found a
negative bucket that the threshold is in. -/
def countFuel (h : FloatHistogram) : ℕ :=
  h.negativeEntries.length + 1

/-- `DetectReset`, for the histogram that comes after `previous`. -/
def detectReset (h previous : FloatHistogram) : Option Bool :=
  if h.counterResetHint = .counterReset then some true
  else if h.counterResetHint = .notCounterReset then some false
  else if h.count < previous.count then some true
  else if h.usesCustomBuckets ≠ previous.usesCustomBuckets ∨
      h.usesCustomBuckets ∧ ¬floatBucketsMatch h.customValues previous.customValues then some true
  else if h.schema > previous.schema then some true
  else if lt h.zeroThreshold previous.zeroThreshold then some true
  else do
    let (previousZeroCount, newThreshold) ←
      zeroCountForLargerThreshold previous.countFuel previous h.zeroThreshold
    if ¬Float64.eq newThreshold h.zeroThreshold then
      -- ZeroThreshold is within a populated bucket in previous histogram.
      return true
    if h.zeroCount < previousZeroCount then return true
    let reset (positive : Bool) := detectResetLoop
      (h.floatBuckets positive h.zeroThreshold h.schema)
      (previous.floatBuckets positive h.zeroThreshold h.schema)
    return reset true || reset false

/-- The zero bucket can be counted up to every threshold that is not smaller. -/
lemma zeroCountForLargerThreshold_isSome {h : FloatHistogram} {threshold : BitVec 64}
    (hschema : isExponentialSchema h.schema = true) (hself : IsThreshold h.zeroThreshold)
    (ht : IsThreshold threshold) (hle : ord h.zeroThreshold ≤ ord threshold) :
    (zeroCountForLargerThreshold h.countFuel h threshold).isSome := by
  rcases hle.eq_or_lt with heq | hlt
  · have : Float64.eq threshold h.zeroThreshold = true := (eq_iff ht hself).2 heq.symm
    simp [zeroCountForLargerThreshold, this]
  · have hfuel : above h.schema h.negativeEntries (ord threshold) < h.countFuel :=
      Nat.lt_succ_of_le above_le_length
    obtain ⟨count, T, heq, -⟩ := zeroCountLoop_ends hschema ht hfuel
    rw [zeroCountForLargerThreshold_eq hself ht hlt, heq, Option.isSome_some]

end Prometheus.Histogram.FloatHistogram
