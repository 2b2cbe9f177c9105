import Prometheus.Histogram.Compact
import Prometheus.Histogram.Reduce

/-!
# Adding and subtracting histograms

`FloatHistogram.Add` and `Sub` of `model/histogram/float_histogram.go`, with the reconciliation of
the zero buckets before it.

Counts are rational numbers: the arithmetic is exact. Bounds and thresholds are `float64`s. Indices
of buckets and offsets are `int32`s: what is computed of them is wrapped. An access beyond the end
of a slice has no result, and neither does a loop that is not through after `fuel` turns.
-/

namespace Prometheus.Histogram

open Float64 GoInt

inductive CounterResetHint
  | unknownCounterReset
  | counterReset
  | notCounterReset
  | gaugeType
deriving DecidableEq

/-- `FloatHistogram`, with counts that are added exactly. -/
structure FloatHistogram where
  counterResetHint : CounterResetHint
  schema : ℤ
  zeroThreshold : BitVec 64
  zeroCount : ℚ
  count : ℚ
  sum : ℚ
  positiveSpans : List Span
  negativeSpans : List Span
  positiveBuckets : List ℚ
  negativeBuckets : List ℚ
  customValues : List (BitVec 64)
deriving DecidableEq

inductive HistogramError
  | incompatibleSchema
  | incompatibleBounds
deriving DecidableEq

/-- The indices that the iterators compute, one offset after the other. -/
def bucketIndices (spans : List Span) : List ℤ :=
  (indices 0 spans).map int32

namespace FloatHistogram

variable (h : FloatHistogram)

def usesCustomBuckets : Bool :=
  isCustomBucketsSchema h.schema

/-- What `PositiveBucketIterator` goes through: the buckets and their indices. -/
def positiveEntries : List (ℤ × ℚ) :=
  (bucketIndices h.positiveSpans).zip h.positiveBuckets

/-- What `NegativeBucketIterator` goes through. -/
def negativeEntries : List (ℤ × ℚ) :=
  (bucketIndices h.negativeSpans).zip h.negativeBuckets

/-! ### The zero bucket -/

/-- The loop over the positive buckets in `zeroCountForLargerThreshold`. -/
def countPositive (schema : ℤ) : List (ℤ × ℚ) → ℚ → BitVec 64 → ℚ × BitVec 64
  | [], count, largerThreshold => (count, largerThreshold)
  | (i, c) :: es, count, largerThreshold =>
    let upper := getBoundExponential i schema
    let lower := getBoundExponential (int32 (i - 1)) schema
    if le largerThreshold lower then (count, largerThreshold)
    else
      -- Bucket to be merged into zero bucket.
      let count := count + c
      if lt largerThreshold upper then
        -- New threshold ended up within a bucket. If it's populated, we need to adjust it.
        (count, if c ≠ 0 then upper else largerThreshold)
      else countPositive schema es count largerThreshold

/-- The loop over the negative buckets; true if it has to be redone with another threshold. -/
def countNegative (schema : ℤ) : List (ℤ × ℚ) → ℚ → BitVec 64 → Bool × ℚ × BitVec 64
  | [], count, largerThreshold => (false, count, largerThreshold)
  | (i, c) :: es, count, largerThreshold =>
    let lower := neg (getBoundExponential i schema)
    let upper := neg (getBoundExponential (int32 (i - 1)) schema)
    if le upper (neg largerThreshold) then (false, count, largerThreshold)
    else
      let count := count + c
      if lt lower (neg largerThreshold) then
        if c ≠ 0 then (true, count, neg lower) else (false, count, largerThreshold)
      else countNegative schema es count largerThreshold

/-- The loop of `zeroCountForLargerThreshold`. -/
def zeroCountLoop (h : FloatHistogram) : ℕ → BitVec 64 → Option (ℚ × BitVec 64)
  | 0, _ => none
  | fuel + 1, largerThreshold =>
    let (count, largerThreshold) :=
      countPositive h.schema h.positiveEntries h.zeroCount largerThreshold
    match countNegative h.schema h.negativeEntries count largerThreshold with
    | (true, _, largerThreshold) => zeroCountLoop h fuel largerThreshold
    | (false, count, largerThreshold) => some (count, largerThreshold)

/-- `zeroCountForLargerThreshold`. For a smaller threshold, it panics. -/
def zeroCountForLargerThreshold (fuel : ℕ) (h : FloatHistogram) (largerThreshold : BitVec 64) :
    Option (ℚ × BitVec 64) :=
  if Float64.eq largerThreshold h.zeroThreshold then some (h.zeroCount, largerThreshold)
  else if lt largerThreshold h.zeroThreshold then none
  else zeroCountLoop h fuel largerThreshold

/-- Set to zero the buckets at the front of which `inZero` holds. -/
def clearFront (inZero : ℤ → Bool) : List ℤ → List ℚ → List ℚ
  | i :: is, c :: cs => if inZero i then 0 :: clearFront inZero is cs else c :: cs
  | _, cs => cs

/-- `Compact` -/
def compact (maxEmptyBuckets : ℕ) (h : FloatHistogram) : Option FloatHistogram := do
  let (positiveBuckets, positiveSpans) ←
    compactBuckets h.positiveBuckets h.positiveSpans maxEmptyBuckets false
  let (negativeBuckets, negativeSpans) ←
    compactBuckets h.negativeBuckets h.negativeSpans maxEmptyBuckets false
  return { h with
    positiveBuckets := positiveBuckets, positiveSpans := positiveSpans
    negativeBuckets := negativeBuckets, negativeSpans := negativeSpans }

/-- `trimBucketsInZeroBucket` -/
def trimBucketsInZeroBucket : Option FloatHistogram :=
  compact 0 { h with
    positiveBuckets := clearFront
      (fun i => !le h.zeroThreshold (getBoundExponential (int32 (i - 1)) h.schema))
      (bucketIndices h.positiveSpans) h.positiveBuckets
    negativeBuckets := clearFront
      (fun i => !le (neg (getBoundExponential (int32 (i - 1)) h.schema)) (neg h.zeroThreshold))
      (bucketIndices h.negativeSpans) h.negativeBuckets }

/-- `h` with its zero bucket grown to `largerThreshold`, in `reconcileZeroBuckets`. -/
def growZeroBucket (fuel : ℕ) (h : FloatHistogram) (largerThreshold : BitVec 64) :
    Option FloatHistogram := do
  let (zeroCount, zeroThreshold) ← h.zeroCountForLargerThreshold fuel largerThreshold
  trimBucketsInZeroBucket { h with zeroCount := zeroCount, zeroThreshold := zeroThreshold }

/-- The loop of `reconcileZeroBuckets`: the histogram, and the zero count of the other one. -/
def reconcileLoop (other : FloatHistogram) :
    ℕ → FloatHistogram → ℚ → BitVec 64 → Option (FloatHistogram × ℚ)
  | 0, _, _, _ => none
  | fuel + 1, h, otherZeroCount, otherZeroThreshold =>
    if Float64.eq otherZeroThreshold h.zeroThreshold then some (h, otherZeroCount)
    else do
      let (otherZeroCount, otherZeroThreshold) ←
        if lt otherZeroThreshold h.zeroThreshold then
          other.zeroCountForLargerThreshold (fuel + 1) h.zeroThreshold
        else some (otherZeroCount, otherZeroThreshold)
      let h ←
        if lt h.zeroThreshold otherZeroThreshold then
          h.growZeroBucket (fuel + 1) otherZeroThreshold
        else some h
      reconcileLoop other fuel h otherZeroCount otherZeroThreshold

/-- `reconcileZeroBuckets`, with the zero count of the other histogram. -/
def reconcileZeroBuckets (fuel : ℕ) (h other : FloatHistogram) : Option (FloatHistogram × ℚ) :=
  reconcileLoop other fuel h other.zeroCount other.zeroThreshold

end FloatHistogram

/-! ### Adding buckets -/

/-- The slices of `addBuckets`. `cursor` are `iSpan`, `iBucket` and `iInSpan`, unless `iSpan` is
-1. -/
structure Adding where
  spansA : List Span
  bucketsA : List ℚ
  cursor : Option (ℕ × ℤ × ℤ)
  indexA : ℤ

namespace Adding

/-- A new bucket in the gap before span `iSpan`, `deltaIndex` behind the previous span. -/
def insertInGap (a : Adding) (deltaIndex : ℤ) (iSpan : ℕ) (iBucket : ℤ) (bucketB : ℚ) :
    Option Adding :=
  if 0 ≤ iBucket ∧ iBucket ≤ a.bucketsA.length then
    let bucketsA := a.bucketsA.insertIdx iBucket.toNat bucketB
    if deltaIndex = 0 then
      -- Directly after previous span, extend previous span.
      let spansA := a.spansA.modify iSpan fun s => { s with offset := int32 (s.offset - 1) }
      let iSpan := iSpan - 1
      let iInSpan := int32 ((spansA[iSpan]?.map Span.length).getD 0)
      some { a with
        spansA := spansA.modify iSpan fun s => { s with length := uint32 (s.length + 1) }
        bucketsA := bucketsA
        cursor := some (iSpan, iBucket, iInSpan) }
    else if (a.spansA[iSpan]?.any fun s => deltaIndex = int32 (s.offset - 1)) then
      -- Directly before next span, extend next span.
      some { a with
        spansA := a.spansA.modify iSpan fun s => ⟨int32 (s.offset - 1), uint32 (s.length + 1)⟩
        bucketsA := bucketsA
        cursor := some (iSpan, iBucket, 0) }
    else
      -- No next span, or next span is not directly adjacent to new bucket. Add new span.
      let spansA := a.spansA.modify iSpan fun s =>
        { s with offset := int32 (s.offset - (deltaIndex + 1)) }
      some { a with
        spansA := spansA.insertIdx iSpan ⟨deltaIndex, 1⟩
        bucketsA := bucketsA
        cursor := some (iSpan, iBucket, 0) }
  else none

/-- The loop that looks for the place of a bucket, from span `iSpan` on. -/
def seek (a : Adding) (bucketB : ℚ) : ℕ → ℤ → ℕ → ℤ → ℤ → Option Adding
  | 0, _, _, _, _ => none
  | fuel + 1, deltaIndex, iSpan, iBucket, iInSpan => do
    let s ← a.spansA[iSpan]?
    let remainingInSpan := int32 (int32 s.length - iInSpan)
    if deltaIndex < remainingInSpan then
      -- Bucket is in current span.
      let iBucket := iBucket + deltaIndex
      if 0 ≤ iBucket ∧ iBucket < a.bucketsA.length then
        some { a with
          bucketsA := a.bucketsA.modify iBucket.toNat (· + bucketB)
          cursor := some (iSpan, iBucket, int32 (iInSpan + deltaIndex)) }
      else none
    else
      let deltaIndex := int32 (deltaIndex - remainingInSpan)
      let iBucket := iBucket + remainingInSpan
      let iSpan := iSpan + 1
      match a.spansA[iSpan]? with
      | none => a.insertInGap deltaIndex iSpan iBucket bucketB
      | some next =>
        if deltaIndex < next.offset then a.insertInGap deltaIndex iSpan iBucket bucketB
        else
          -- Try start of next span.
          seek a bucketB fuel (int32 (deltaIndex - next.offset)) iSpan iBucket 0

/-- A turn of the loops over the buckets to add. -/
def add (a : Adding) (indexB : ℤ) (bucketB : ℚ) : Option Adding := do
  let a ←
    match a.cursor with
    | some (iSpan, iBucket, iInSpan) =>
      a.seek bucketB (a.spansA.length + 1) (int32 (indexB - a.indexA)) iSpan iBucket iInSpan
    | none =>
      match a.spansA with
      | [] => some { a with bucketsA := bucketB :: a.bucketsA, spansA := [⟨indexB, 1⟩] }
      | s :: ss =>
        if s.offset > indexB then
          -- Add bucket before all others.
          let spansA :=
            if s.offset = int32 (indexB + 1) then
              ⟨int32 (s.offset - 1), uint32 (s.length + 1)⟩ :: ss
            else ⟨indexB, 1⟩ :: ⟨int32 (s.offset - (indexB + 1)), s.length⟩ :: ss
          some { a with bucketsA := bucketB :: a.bucketsA, spansA := spansA }
        else if s.offset = indexB then
          -- Just add to first bucket.
          match a.bucketsA with
          | [] => none
          | c :: cs => some { a with bucketsA := (c + bucketB) :: cs }
        else a.seek bucketB (a.spansA.length + 1) (int32 (indexB - s.offset)) 0 0 0
  return { a with indexA := indexB }

/-- The loops over the spans and buckets to add. The first ones are left out as long as `skip`
holds. -/
def run (negative : Bool) (skip : ℤ → Bool) :
    Bool → List ℤ → List ℚ → Adding → Option Adding
  | _, [], _, a => some a
  | _, _ :: _, [], _ => none
  | lowerThanThreshold, i :: is, c :: cs, a =>
    if lowerThanThreshold ∧ skip i then
      run negative skip true is cs { a with indexA := i }
    else
      (a.add i (if negative then -c else c)).bind (run negative skip false is cs)

end Adding

/-- `addBuckets`. -/
def addBuckets (schema : ℤ) (threshold : BitVec 64) (negative : Bool) (spansA : List Span)
    (bucketsA : List ℚ) (spansB : List Span) (bucketsB : List ℚ) : Option (List Span × List ℚ) :=
  let skip := fun i => isExponentialSchema schema && le (getBoundExponential i schema) threshold
  (Adding.run negative skip true (bucketIndices spansB) bucketsB ⟨spansA, bucketsA, none, 0⟩).map
    fun a => (a.spansA, a.bucketsA)

/-- `FloatBucketsMatch`. -/
def floatBucketsMatch (b1 b2 : List (BitVec 64)) : Bool :=
  b1 == b2

namespace FloatHistogram

/-- The counter reset hint of a sum. -/
def addHint : CounterResetHint → CounterResetHint → CounterResetHint
  | h, other =>
    if other = h then h
    else if h = .gaugeType then h
    else if other = .gaugeType then .gaugeType
    else if h = .unknownCounterReset then h
    else .unknownCounterReset

/-- The errors of `Add` and `Sub`. -/
def checkCompatible (h other : FloatHistogram) : Except HistogramError Unit :=
  if h.usesCustomBuckets ≠ other.usesCustomBuckets then .error .incompatibleSchema
  else if h.usesCustomBuckets ∧ ¬floatBucketsMatch h.customValues other.customValues then
    .error .incompatibleBounds
  else .ok ()

/-- The buckets in a smaller schema, if it is one. -/
def reduceTo (target : ℤ) (h : FloatHistogram) : Option FloatHistogram :=
  if target < h.schema then do
    let (ps, pb) ← reduceResolution h.positiveSpans h.positiveBuckets h.schema target false
    let (ns, nb) ← reduceResolution h.negativeSpans h.negativeBuckets h.schema target false
    return { h with
      schema := target, positiveSpans := ps, positiveBuckets := pb, negativeSpans := ns
      negativeBuckets := nb }
  else some h

/-- The buckets of a sum or, with `negative`, of a difference. -/
def addAllBuckets (negative : Bool) (h other : FloatHistogram) : Option FloatHistogram :=
  if h.usesCustomBuckets then do
    let (spans, buckets) ← addBuckets h.schema h.zeroThreshold negative h.positiveSpans
      h.positiveBuckets other.positiveSpans other.positiveBuckets
    return { h with positiveSpans := spans, positiveBuckets := buckets }
  else do
    let h' ← h.reduceTo other.schema
    let other' ← other.reduceTo h.schema
    let (ps, pb) ← addBuckets h'.schema h.zeroThreshold negative h'.positiveSpans
      h'.positiveBuckets other'.positiveSpans other'.positiveBuckets
    let (ns, nb) ← addBuckets h'.schema h.zeroThreshold negative h'.negativeSpans
      h'.negativeBuckets other'.negativeSpans other'.negativeBuckets
    return { h' with
      positiveSpans := ps, positiveBuckets := pb, negativeSpans := ns, negativeBuckets := nb }

/-- `Add` and `Sub` after the checks. -/
def merge (negative : Bool) (fuel : ℕ) (h other : FloatHistogram) : Option FloatHistogram := do
  let signed (x : ℚ) : ℚ := if negative then -x else x
  let h ←
    if h.usesCustomBuckets then some h
    else (h.reconcileZeroBuckets fuel other).map fun (h, otherZeroCount) =>
      { h with zeroCount := h.zeroCount + signed otherZeroCount }
  addAllBuckets negative { h with
    count := h.count + signed other.count, sum := h.sum + signed other.sum } other

/-- `h.Add(other)`: both histograms after the call. Nothing is written to the other one. -/
def add (fuel : ℕ) (h other : FloatHistogram) :
    Option (Except HistogramError (FloatHistogram × FloatHistogram)) :=
  match checkCompatible h other with
  | .error e => some (.error e)
  | .ok () =>
    (merge false fuel { h with
      counterResetHint := addHint h.counterResetHint other.counterResetHint } other).map
        fun h' => .ok (h', other)

/-- `h.Sub(other)`. -/
def sub (fuel : ℕ) (h other : FloatHistogram) :
    Option (Except HistogramError (FloatHistogram × FloatHistogram)) :=
  match checkCompatible h other with
  | .error e => some (.error e)
  | .ok () => (merge true fuel h other).map fun h' => .ok (h', other)

end FloatHistogram

end Prometheus.Histogram
