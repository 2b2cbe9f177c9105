import Prometheus.Lib.Float64
import Prometheus.Record.Format

/-!
# Validity and equality of histograms

`Validate` and `Equals` of `model/histogram/histogram.go` and `model/histogram/float_histogram.go`.
The head validates the histograms that are appended to it, and compares a histogram with the last
one of its series if the two have the same time.

Counts of histograms are `uint64` and buckets are `int64` differences; those of float histograms are
all floats.
-/

namespace Prometheus.Record

/-- What is wrong with a histogram. -/
inductive HistogramError
  /-- `ErrHistogramSpanNegativeOffset` -/
  | spanNegativeOffset (number : ℕ) (offset : BitVec 32)
  /-- `ErrHistogramSpansBucketsMismatch` -/
  | spansBucketsMismatch (spanBuckets numBuckets : ℕ)
  /-- `ErrHistogramNegativeBucketCount` -/
  | negativeBucketCount (number : ℕ) (count : BitVec 64)
  /-- `ErrHistogramCustomBucketsInvalid` -/
  | customBucketsInvalid (prev curr : BitVec 64)
  /-- `ErrHistogramCustomBucketsInfinite` -/
  | customBucketsInfinite
  /-- `ErrHistogramCustomBucketsMismatch` -/
  | customBucketsMismatch (bounds totalSpanLength : ℕ)
  /-- "must have zero count of 0" -/
  | zeroCount
  /-- "must have zero threshold of 0" -/
  | zeroThreshold
  /-- "must not have negative spans" -/
  | negativeSpans
  /-- "must not have negative buckets" -/
  | negativeBuckets
  /-- "histogram with exponential schema must not have custom bounds" -/
  | customBounds
  /-- `ErrHistogramCountNotBigEnough` -/
  | countNotBigEnough (sumOfBuckets count : BitVec 64)
  /-- `ErrHistogramCountMismatch` -/
  | countMismatch (sumOfBuckets count : BitVec 64)
  /-- "custom buckets: %w" -/
  | customBuckets (err : HistogramError)
  /-- "positive side: %w" -/
  | positiveSide (err : HistogramError)
  /-- "negative side: %w" -/
  | negativeSide (err : HistogramError)
deriving DecidableEq

variable (spans : List Span)

/-- The number of buckets that the spans need. -/
def spanBuckets : ℕ :=
  (spans.map fun s => s.length.toNat).sum

def checkHistogramSpans (numBuckets : ℕ) : Except HistogramError Unit :=
  match spans.zipIdx.find? fun (s, n) => n > 0 ∧ s.offset.slt 0 with
  | some (s, n) => .error (.spanNegativeOffset (n + 1) s.offset)
  | none =>
    if spanBuckets spans ≠ numBuckets then
      .error (.spansBucketsMismatch (spanBuckets spans) numBuckets)
    else .ok ()

/-- The loop of `checkHistogramBuckets` over differences, with the last count and the sum so far. -/
def checkDeltaBuckets : ℕ → BitVec 64 → BitVec 64 → List (BitVec 64) →
    Except HistogramError (BitVec 64)
  | _, _, count, [] => .ok count
  | i, last, count, b :: bs =>
    let c := last + b
    if c.slt 0 then .error (.negativeBucketCount (i + 1) c)
    else checkDeltaBuckets (i + 1) c (count + c) bs

/-- The loop of `checkHistogramBuckets` over float counts. `FloatHistogram.Validate` ignores the
sum. -/
def checkFloatBuckets (buckets : List (BitVec 64)) : Except HistogramError Unit :=
  match buckets.zipIdx.find? fun (c, _) => Float64.lt c 0 with
  | some (c, i) => .error (.negativeBucketCount (i + 1) c)
  | none => .ok ()

/-- The loop of `checkHistogramCustomBounds` over the bounds gives the last one. -/
def checkBounds : BitVec 64 → List (BitVec 64) → Except HistogramError (BitVec 64)
  | prev, [] => .ok prev
  | prev, curr :: bounds =>
    if Float64.le curr prev then .error (.customBucketsInvalid prev curr)
    else checkBounds curr bounds

def checkHistogramCustomBounds (bounds : List (BitVec 64)) (spans : List Span) (numBuckets : ℕ) :
    Except HistogramError Unit := do
  let prev ← checkBounds (Float64.neg Float64.inf) bounds
  if Float64.eq prev Float64.inf then throw .customBucketsInfinite
  match spans.zipIdx.find? fun (s, _) => s.offset.slt 0 with
  | some (s, n) => throw (.spanNegativeOffset (n + 1) s.offset)
  | none =>
    if spanBuckets spans ≠ numBuckets then
      throw (.spansBucketsMismatch (spanBuckets spans) numBuckets)
    let totalSpanLength := spanBuckets spans + (spans.map fun s => s.offset.toNat).sum
    if bounds.length + 1 < totalSpanLength then
      throw (.customBucketsMismatch bounds.length totalSpanLength)

/-- An error with what it is about in front. -/
def wrapError {α : Type} (wrap : HistogramError → HistogramError) :
    Except HistogramError α → Except HistogramError α
  | .ok a => .ok a
  | .error err => .error (wrap err)

namespace Histogram

variable (h : Histogram)

def usesCustomBuckets : Bool :=
  isCustomBucketsSchema h.schema

/-- What `Validate` checks for histograms with custom buckets. -/
def validateCustom (zeroCountIsZero : Bool) : Except HistogramError Unit := do
  wrapError .customBuckets
    (checkHistogramCustomBounds h.customValues h.positiveSpans h.positiveBuckets.length)
  if !zeroCountIsZero then throw (.customBuckets .zeroCount)
  if !Float64.eq h.zeroThreshold 0 then throw (.customBuckets .zeroThreshold)
  if h.negativeSpans ≠ [] then throw (.customBuckets .negativeSpans)
  if h.negativeBuckets ≠ [] then throw (.customBuckets .negativeBuckets)

/-- What `Validate` checks for the spans of all other histograms. -/
def validateSpans : Except HistogramError Unit := do
  wrapError .positiveSide (checkHistogramSpans h.positiveSpans h.positiveBuckets.length)
  wrapError .negativeSide (checkHistogramSpans h.negativeSpans h.negativeBuckets.length)

/-- `Histogram.Validate`. -/
def validate : Except HistogramError Unit := do
  let nCount ←
    if h.usesCustomBuckets then do
      h.validateCustom (h.zeroCount == 0)
      pure 0
    else do
      h.validateSpans
      let nCount ← wrapError .negativeSide (checkDeltaBuckets 0 0 0 h.negativeBuckets)
      if h.customValues ≠ [] then throw .customBounds
      pure nCount
  let pCount ← wrapError .positiveSide (checkDeltaBuckets 0 0 0 h.positiveBuckets)
  let sumOfBuckets := nCount + pCount + h.zeroCount
  if Float64.isNaN h.sum then
    if sumOfBuckets > h.count then throw (.countNotBigEnough sumOfBuckets h.count)
  else if sumOfBuckets ≠ h.count then throw (.countMismatch sumOfBuckets h.count)

/-- `FloatHistogram.Validate`. -/
def validateFloat : Except HistogramError Unit := do
  if h.usesCustomBuckets then
    h.validateCustom (Float64.eq h.zeroCount 0)
  else
    h.validateSpans
    wrapError .negativeSide (checkFloatBuckets h.negativeBuckets)
    if h.customValues ≠ [] then throw .customBounds
  wrapError .positiveSide (checkFloatBuckets h.positiveBuckets)

end Histogram

/-! ### Equality -/

def allEmptySpans : Bool :=
  spans.all fun s => s.length == 0

/-- A span of length zero, with the ones of length zero behind it, is added to the next span. -/
def mergeEmpty (offset : BitVec 32) : List Span → Span × List Span
  | [] => (⟨offset, 0⟩, [])
  | s :: spans =>
    if s.length = 0 then mergeEmpty (offset + s.offset) spans
    else (⟨offset + s.offset, s.length⟩, spans)

def nextSpan (s : Span) (spans : List Span) : Span × List Span :=
  if s.length = 0 then mergeEmpty s.offset spans else (s, spans)

/-- The loop of `spansMatch`, which takes a span of each side in every turn. -/
def spansMatchLoop : ℕ → List Span → List Span → Bool
  | _, [], spans₂ => allEmptySpans spans₂
  | _, spans₁, [] => allEmptySpans spans₁
  | 0, _, _ => false
  | turns + 1, s₁ :: spans₁, s₂ :: spans₂ =>
    let (currS1, spans₁) := nextSpan s₁ spans₁
    let (currS2, spans₂) := nextSpan s₂ spans₂
    if currS1.length = 0 ∧ currS2.length = 0 then true
    else if currS1.offset ≠ currS2.offset ∨ currS1.length ≠ currS2.length then false
    else spansMatchLoop turns spans₁ spans₂

def spansMatch (spans₁ spans₂ : List Span) : Bool :=
  spansMatchLoop spans₁.length spans₁ spans₂

namespace Histogram

/-- `Histogram.Equals` and `FloatHistogram.Equals`, which do not differ on the bits of the numbers.
-/
def equals (h h₂ : Histogram) : Bool :=
  h.schema == h₂.schema && h.count == h₂.count && h.sum == h₂.sum &&
    (!h.usesCustomBuckets || h.customValues == h₂.customValues) &&
    Float64.eq h.zeroThreshold h₂.zeroThreshold && h.zeroCount == h₂.zeroCount &&
    spansMatch h.negativeSpans h₂.negativeSpans && h.negativeBuckets == h₂.negativeBuckets &&
    spansMatch h.positiveSpans h₂.positiveSpans && h.positiveBuckets == h₂.positiveBuckets

end Histogram
end Prometheus.Record
