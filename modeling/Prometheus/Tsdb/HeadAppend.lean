import Prometheus.Histogram.Validate
import Prometheus.Tsdb.HeadChunks
import Prometheus.Tsdb.Isolation

/-!
# The head and its appenders

`Head` of `tsdb/head.go` and `headAppender` of `tsdb/head_append.go`. An appender checks every
sample against the state of its series when it is appended, and keeps it in one of three buffers:
floats, histograms and float histograms. Commit logs the buffers to the write-ahead log, checks each
sample again, and adds it to its series: first all floats, then all histograms, then all float
histograms. Rollback logs the new series and forgets the samples.

A series is a pointer in the code. Its address is its ref here, which is never given twice: `mem`
has the series at each address, and `series` the refs of those that are registered, under their ID
and their labels alike.

The functions that take a lock are definitions of their own (`resolve`, `appendLocked`,
`appendHistogramLocked`, `commitValue`), so that the steps between which others can run are visible.
Metrics, the storage of exemplars, the transaction rings of series and the log of out-of-order
samples are left out.
-/

namespace Prometheus.Tsdb

open GoInt Record Encoding

/-! ### Series -/

/-- The value of a sample. -/
inductive SampleValue
  | float (v : BitVec 64)
  | histogram (h : Histogram)
  | floatHistogram (fh : Histogram)
deriving DecidableEq

structure Metadata where
  type : BitVec 8
  unit : Bytes
  help : Bytes
deriving DecidableEq

structure Exemplar where
  labels : List Label
  value : BitVec 64
  ts : ℤ
  hasTs : Bool
deriving DecidableEq

/-- What the storage of exemplars has against an exemplar. -/
inductive ExemplarError
  | duplicateExemplar
  | exemplarsDisabled
  | outOfOrderExemplar
  | exemplarLabelLength
deriving DecidableEq

inductive AppendError
  | outOfBounds
  | outOfOrderSample
  | tooOldSample
  | duplicateHistogramToFloat (t : ℤ) (v : BitVec 64)
  | duplicateFloat (t : ℤ) (existing new : BitVec 64)
  | duplicateSampleForTimestamp
  | nativeHistogramsDisabled
  | invalidHistogram (err : HistogramError)
  /-- "empty labelset" -/
  | emptyLabelset
  /-- "label name is not unique" -/
  | duplicateLabelName (name : Bytes)
  /-- What the callback has against a new series, with its text. -/
  | preCreation (err : Bytes)
  /-- "unknown HeadSeriesRef when trying to add exemplar" -/
  | unknownSeriesRef (ref : ℕ)
  /-- "unknown series when trying to add metadata" -/
  | unknownSeries (ref : ℕ) (lset : List Label)
  | invalidExemplar (err : ExemplarError)
deriving DecidableEq

/-- When chunks are cut, and how out-of-order chunks are encoded. The number of chunks cut for a
sample may depend on its series and its time in any way. -/
structure ChunkRules where
  cuts : ℕ → ℤ → ℕ
  toEncodedChunks : List (ℤ × SampleValue) → List (OOOHeadChunk SampleValue)

/-- `memSeries`, with its chunks in `chunks`. -/
structure HeadSeries where
  lset : List Label
  chunks : SeriesChunks SampleValue
  lastValue : BitVec 64
  lastHistogramValue : Option Histogram
  lastFloatHistogramValue : Option Histogram
  pendingCommit : Bool
  metadata : Option Metadata

variable (s : HeadSeries)

namespace HeadSeries

/-- `newMemSeries`. -/
def new (lset : List Label) (ref : ℕ) (pendingCommit : Bool) : HeadSeries where
  lset := lset
  chunks := .new ref
  lastValue := 0
  lastHistogramValue := none
  lastFloatHistogramValue := none
  pendingCommit := pendingCommit
  metadata := none

def maxTime : ℤ :=
  s.chunks.maxTime

/-- What `appendable`, `appendableHistogram` and `appendableFloatHistogram` have in common. They
differ in what they have against a sample at the time of the last one. -/
def appendableWith (duplicate : Option AppendError)
    (t headMaxt minValidTime oooTimeWindow : ℤ) : Except AppendError Bool :=
  if t ≥ minValidTime ∧ s.chunks.headChunks = [] then
    -- The series has no sample and was freshly created.
    .ok false
  else if t ≥ minValidTime ∧ t > s.maxTime then .ok false
  else if t ≥ minValidTime ∧ t = s.maxTime then
    match duplicate with
    | some err => .error err
    | none => .ok false
  else if oooTimeWindow > 0 ∧ t ≥ wrap (headMaxt - oooTimeWindow) then .ok true
  else if oooTimeWindow > 0 then .error .tooOldSample
  else if t < minValidTime then .error .outOfBounds
  else .error .outOfOrderSample

variable (t : ℤ)

def appendable (v : BitVec 64) : ℤ → ℤ → ℤ → Except AppendError Bool :=
  s.appendableWith (if s.lastHistogramValue.isSome ∨ s.lastFloatHistogramValue.isSome then
      some (.duplicateHistogramToFloat t v)
    else if s.lastValue ≠ v then some (.duplicateFloat t s.lastValue v)
    else none) t

def appendableHistogram (h : Histogram) : ℤ → ℤ → ℤ → Except AppendError Bool :=
  s.appendableWith
    (if s.lastHistogramValue.any h.equals then none else some .duplicateSampleForTimestamp) t

def appendableFloatHistogram (fh : Histogram) : ℤ → ℤ → ℤ → Except AppendError Bool :=
  s.appendableWith
    (if s.lastFloatHistogramValue.any fh.equals then none else some .duplicateSampleForTimestamp) t

def appendableValue : SampleValue → ℤ → ℤ → ℤ → Except AppendError Bool
  | .float v => s.appendable t v
  | .histogram h => s.appendableHistogram t h
  | .floatHistogram fh => s.appendableFloatHistogram t fh

/-- The last value of the series, of whichever kind. -/
def setLast : SampleValue → HeadSeries
  | .float v =>
    { s with lastValue := v, lastHistogramValue := none, lastFloatHistogramValue := none }
  | .histogram h => { s with lastHistogramValue := some h, lastFloatHistogramValue := none }
  | .floatHistogram fh => { s with lastHistogramValue := none, lastFloatHistogramValue := some fh }

/-- What `AppendHistogram` does to the last values of a series that it has created, if it has none.
-/
def presetLast (created : Bool) (last lastFloat : Option Histogram) : HeadSeries :=
  if created ∧ s.lastHistogramValue = none ∧ s.lastFloatHistogramValue = none then
    { s with lastHistogramValue := last, lastFloatHistogramValue := lastFloat }
  else s

/-- `append`, `appendHistogram` and `appendFloatHistogram`: whether the sample is in order, and the
series. -/
def append (rules : ChunkRules) (t : ℤ) (v : SampleValue) : Bool × HeadSeries :=
  match s.chunks.appendPreprocessor t (rules.cuts s.chunks.ref t) with
  | (false, chunks) => (false, { s with chunks := chunks })
  | (true, chunks) => (true, { s.setLast v with chunks := chunks.appendSample t v })

def insert (rules : ChunkRules) (t : ℤ) (v : SampleValue) (oooCapMax : ℤ) : HeadSeries :=
  { s with chunks := s.chunks.insert rules.toEncodedChunks t v oooCapMax }

end HeadSeries

/-! ### The head -/

/-- A sample, or whatever else belongs to a series at a time. -/
structure RefValue (α : Type) where
  ref : ℕ
  t : ℤ
  v : α
deriving DecidableEq

/-- A record of the write-ahead log. -/
inductive WalRecord
  | series (series : List (ℕ × List Label))
  | metadata (metadata : List (ℕ × Metadata))
  | samples (samples : List (RefValue (BitVec 64)))
  | histogramSamples (histograms : List (RefValue Histogram))
  | customBucketsHistogramSamples (histograms : List (RefValue Histogram))
  | floatHistogramSamples (floatHistograms : List (RefValue Histogram))
  | customBucketsFloatHistogramSamples (floatHistograms : List (RefValue Histogram))
  | exemplars (exemplars : List (ℕ × Exemplar))
deriving DecidableEq

structure HeadOptions where
  enableNativeHistograms : Bool
  enableExemplarStorage : Bool
  maxExemplars : ℤ
  outOfOrderTimeWindow : ℤ
  outOfOrderCapMax : ℤ
  /-- What the storage of exemplars says about an exemplar of a series. -/
  validateExemplar : List Label → Exemplar → Option ExemplarError
  /-- `SeriesCallback.PreCreation`, which may have something against a new series. -/
  preCreation : List Label → Option Bytes
  rules : ChunkRules

structure Head where
  opts : HeadOptions
  chunkRange : ℤ
  minTime : ℤ
  maxTime : ℤ
  /-- Mint allowed to be added to the head. -/
  minValidTime : ℤ
  lastSeriesID : ℕ
  mem : ℕ → HeadSeries
  series : List ℕ
  wal : Option (List WalRecord)
  iso : Isolation

namespace Head

def maxInt64 : ℤ := 2 ^ 63 - 1

/-- A head without data. -/
def empty (opts : HeadOptions) (chunkRange minValidTime : ℤ) (isolationDisabled : Bool) : Head where
  opts := opts
  chunkRange := chunkRange
  minTime := maxInt64
  maxTime := minInt64
  minValidTime := minValidTime
  lastSeriesID := 0
  mem := fun ref => .new [] ref false
  series := []
  wal := some []
  iso := .newIsolation isolationDisabled

variable (h : Head)

def getByID (ref : ℕ) : Option ℕ :=
  if ref ∈ h.series then some ref else none

def getByHash (lset : List Label) : Option ℕ :=
  h.series.find? fun ref => (h.mem ref).lset = lset

/-- A change of the series at an address, under its lock. -/
def update (ref : ℕ) (f : HeadSeries → HeadSeries) : Head :=
  { h with mem := Function.update h.mem ref (f (h.mem ref)) }

@[simp] lemma update_mem_self (ref : ℕ) (f : HeadSeries → HeadSeries) :
    (h.update ref f).mem ref = f (h.mem ref) :=
  Function.update_self ..

lemma update_mem_of_ne {ref r : ℕ} (hne : r ≠ ref) (f : HeadSeries → HeadSeries) :
    (h.update ref f).mem r = h.mem r :=
  Function.update_of_ne hne ..

/-- `getOrCreateWithID`, and whether the series was created. -/
def getOrCreateWithID (id : ℕ) (lset : List Label) (pendingCommit : Bool) :
    Except AppendError (ℕ × Bool) × Head :=
  match h.getByHash lset with
  | some ref => (.ok (ref, false), h)
  | none =>
    match h.opts.preCreation lset with
    | some err => (.error (.preCreation err), h)
    | none =>
      (.ok (id, true), { h with
        mem := Function.update h.mem id (.new lset id pendingCommit)
        series := h.series ++ [id] })

/-- `getOrCreate`, and whether the series was created. A series that is refused has used up an ID.
-/
def getOrCreate (lset : List Label) : Except AppendError (ℕ × Bool) × Head :=
  match h.getByHash lset with
  | some ref => (.ok (ref, false), h)
  | none =>
    let id := h.lastSeriesID + 1
    getOrCreateWithID { h with lastSeriesID := id } id lset true

def initialized : Bool :=
  h.minTime ≠ maxInt64

def initTime (t : ℤ) : Head :=
  if h.minTime = maxInt64 then
    { h with minTime := t, maxTime := if h.maxTime = minInt64 then t else h.maxTime }
  else h

def appendableMinValidTime : ℤ :=
  -- This boundary ensures that no samples will be added to the compaction window.
  let cwEnd := wrap (h.maxTime - h.chunkRange.tdiv 2)
  max cwEnd h.minValidTime

def updateMinMaxTime (mint maxt : ℤ) : Head :=
  { h with minTime := min h.minTime mint, maxTime := max h.maxTime maxt }

/-- `wal.Log` for some records, one after the other, of which the first `logged` can be written. The
first error ends it. -/
def log (logged : ℕ) (records : List WalRecord) : Bool × Head :=
  match h.wal with
  | none => (true, h)
  | some wal =>
    (records.length ≤ logged, { h with wal := some (wal ++ records.take logged) })

end Head

/-! ### Appenders -/

structure HeadAppender where
  /-- No samples below this timestamp are allowed. -/
  minValidTime : ℤ
  mint : ℤ
  maxt : ℤ
  headMaxt : ℤ
  oooTimeWindow : ℤ
  /-- New series held by this appender. -/
  seriesRefs : List (ℕ × List Label)
  samples : List (RefValue (BitVec 64))
  histograms : List (RefValue Histogram)
  floatHistograms : List (RefValue Histogram)
  metadata : List (ℕ × Metadata)
  exemplars : List (ℕ × Exemplar)
  appendID : ℕ
  closed : Bool
  /-- `hints.DiscardOutOfOrder` -/
  discardOutOfOrder : Bool

/-- What a call of an appender returns, and what it leaves. -/
abbrev Outcome (α : Type) := Except AppendError α × HeadAppender × Head

/-- `Head.appender`. The isolation may take the appender `pick` from its pool. -/
def Head.appender (h : Head) (pick : Option ℕ) : HeadAppender × Head :=
  let minValidTime := h.appendableMinValidTime
  let ((appendID, _), iso) := h.iso.newAppendID minValidTime pick
  ({ minValidTime := minValidTime
     mint := Head.maxInt64
     maxt := minInt64
     headMaxt := h.maxTime
     oooTimeWindow := h.opts.outOfOrderTimeWindow
     seriesRefs := []
     samples := []
     histograms := []
     floatHistograms := []
     metadata := []
     exemplars := []
     appendID := appendID
     closed := false
     discardOutOfOrder := false }, { h with iso := iso })

/-- `lset.HasDuplicateLabelNames`, for labels that are sorted by name. -/
def duplicateLabelName : List Label → Option Bytes
  | l₁ :: l₂ :: ls => if l₁.name = l₂.name then some l₁.name else duplicateLabelName (l₂ :: ls)
  | _ => none

variable (v : BitVec 64)

/-- `value.IsStaleNaN`. -/
def isStaleNaN : Bool := v == 0x7ff0000000000002#64

/-- `&histogram.Histogram{Sum: v}` and `&histogram.FloatHistogram{Sum: v}`. -/
def histogramWithSum : Histogram := ⟨0, 0, 0, 0, 0, v, [], [], [], [], []⟩

variable (a : HeadAppender)

namespace HeadAppender

variable (h : Head)

/-- `getOrCreate`, with the labels without the empty ones. -/
def getOrCreate (lset : List Label) : Outcome (ℕ × Bool) :=
  -- Ensure no empty labels have gotten through.
  let lset := lset.filter fun l => l.value ≠ []
  if lset = [] then (.error .emptyLabelset, a, h)
  else
    match duplicateLabelName lset with
    | some name => (.error (.duplicateLabelName name), a, h)
    | none =>
      match h.getOrCreate lset with
      | (.error err, h) => (.error err, a, h)
      | (.ok (ref, created), h) =>
        (.ok (ref, created),
          if created then { a with seriesRefs := a.seriesRefs ++ [(ref, lset)] } else a, h)

variable (ref : ℕ)

/-- The series for a ref or, if there is none, for the labels, and whether it was created. -/
def resolve (lset : List Label) : Outcome (ℕ × Bool) :=
  match h.getByID ref with
  | some ref => (.ok (ref, false), a, h)
  | none => a.getOrCreate h lset

/-- The times of the appender include `t`. -/
def seen (t : ℤ) : HeadAppender :=
  { a with mint := min a.mint t, maxt := max a.maxt t }

/-- What `Append` does under the lock of the series, unless the sample is a stale marker of a
histogram. -/
def appendLocked (t : ℤ) (v : BitVec 64) : Outcome ℕ :=
  match (h.mem ref).appendable t v a.headMaxt a.minValidTime a.oooTimeWindow with
  | .error err => (.error err, a, h)
  | .ok isOOO =>
    if isOOO ∧ a.discardOutOfOrder then (.error .outOfOrderSample, a, h)
    else
      (.ok ref, { a.seen t with samples := a.samples ++ [⟨ref, t, v⟩] },
        h.update ref fun s => { s with pendingCommit := true })

variable (created : Bool)

/-- What `AppendHistogram` does for a histogram, under the lock of the series and then. -/
def appendHistogramLocked (t : ℤ) (hist : Histogram) : Outcome ℕ :=
  let h := h.update ref (·.presetLast created (some (histogramWithSum 0)) none)
  match (h.mem ref).appendableHistogram t hist a.headMaxt a.minValidTime a.oooTimeWindow with
  | .error err => (.error err, a, h.update ref fun s => { s with pendingCommit := true })
  | .ok _ => (.ok ref, { a.seen t with histograms := a.histograms ++ [⟨ref, t, hist⟩] }, h)

/-- What `AppendHistogram` does for a float histogram, under the lock of the series and then. Unlike
for a histogram, it is success that marks the series. -/
def appendFloatHistogramLocked (t : ℤ) (fh : Histogram) : Outcome ℕ :=
  let h := h.update ref (·.presetLast created none (some (histogramWithSum 0)))
  match (h.mem ref).appendableFloatHistogram t fh a.headMaxt a.minValidTime a.oooTimeWindow with
  | .error err => (.error err, a, h)
  | .ok _ =>
    (.ok ref, { a.seen t with floatHistograms := a.floatHistograms ++ [⟨ref, t, fh⟩] },
      h.update ref fun s => { s with pendingCommit := true })

/-- What `AppendHistogram` checks before it looks for the series. -/
def checkHistograms (t : ℤ) (hist fh : Option Histogram) : Except AppendError Unit :=
  if !h.opts.enableNativeHistograms then .error .nativeHistogramsDisabled
  else if a.oooTimeWindow = 0 ∧ t < a.minValidTime then .error .outOfBounds
  else
    match (hist.map Histogram.validate).getD (.ok ()),
    (fh.map Histogram.validateFloat).getD (.ok ()) with
    | .error err, _ => .error (.invalidHistogram err)
    | _, .error err => .error (.invalidHistogram err)
    | .ok (), .ok () => .ok ()

/-- What `AppendHistogram` does with the series. -/
def appendHistograms (t : ℤ) : Option Histogram → Option Histogram → Outcome ℕ
  | some hist, _ => a.appendHistogramLocked h ref created t hist
  | none, some fh => a.appendFloatHistogramLocked h ref created t fh
  | none, none => (.ok ref, a.seen t, h)

def appendHistogram (lset : List Label) (t : ℤ) (hist fh : Option Histogram) : Outcome ℕ :=
  match a.checkHistograms h t hist fh with
  | .error err => (.error err, a, h)
  | .ok () =>
    match a.resolve h ref lset with
    | (.error err, a, h) => (.error err, a, h)
    | (.ok (ref, created), a, h) => a.appendHistograms h ref created t hist fh

/-- The histograms that `Append` appends in place of a float, if it is a stale marker and the last
value of the series was a histogram. -/
def staleHistogram : Option (Option Histogram × Option Histogram) :=
  if !isStaleNaN v then none
  else if s.lastHistogramValue.isSome then some (some (histogramWithSum v), none)
  else if s.lastFloatHistogramValue.isSome then some (none, some (histogramWithSum v))
  else none

def append (lset : List Label) (t : ℤ) (v : BitVec 64) : Outcome ℕ :=
  -- Fail fast if OOO is disabled and the sample is out of bounds.
  if a.oooTimeWindow = 0 ∧ t < a.minValidTime then (.error .outOfBounds, a, h)
  else
    match a.resolve h ref lset with
    | (.error err, a, h) => (.error err, a, h)
    | (.ok (sref, _), a, h) =>
      match staleHistogram (h.mem sref) v with
      | some (hist, fh) => a.appendHistogram h ref lset t hist fh
      | none => a.appendLocked h sref t v

def appendExemplar (lset : List Label) (e : Exemplar) : Outcome ℕ :=
  -- Check if exemplar storage is enabled.
  if !h.opts.enableExemplarStorage ∨ h.opts.maxExemplars ≤ 0 then (.ok 0, a, h)
  else
    match (h.getByID ref).or (h.getByHash lset) with
    | none => (.error (.unknownSeriesRef ref), a, h)
    | some ref =>
      let e := { e with labels := e.labels.filter fun l => l.value ≠ [] }
      match h.opts.validateExemplar (h.mem ref).lset e with
      | some .duplicateExemplar => (.ok 0, a, h)
      | some .exemplarsDisabled => (.ok 0, a, h)
      | some err => (.error (.invalidExemplar err), a, h)
      | none => (.ok ref, { a with exemplars := a.exemplars ++ [(ref, e)] }, h)

def updateMetadata (lset : List Label) (m : Metadata) : Outcome ℕ :=
  match (h.getByID ref).or (h.getByHash lset) with
  | none => (.error (.unknownSeries ref lset), a, h)
  | some ref =>
    if (h.mem ref).metadata = some m then (.ok ref, a, h)
    else (.ok ref, { a with metadata := a.metadata ++ [(ref, m)] }, h)

/-- The histograms of a buffer with custom buckets, or those without. -/
def customBuckets (custom : Bool) (histograms : List (RefValue Histogram)) :
    List (RefValue Histogram) :=
  histograms.filter fun x => x.v.usesCustomBuckets = custom

/-- A record, unless it is about nothing. -/
def recordOf {α : Type} (record : List α → WalRecord) (xs : List α) : List WalRecord :=
  if xs = [] then [] else [record xs]

/-- The records that `log` writes, in this order. -/
def logRecords : List WalRecord :=
  recordOf .series a.seriesRefs ++ recordOf .metadata a.metadata ++ recordOf .samples a.samples ++
    recordOf .histogramSamples (customBuckets false a.histograms) ++
    recordOf .customBucketsHistogramSamples (customBuckets true a.histograms) ++
    recordOf .floatHistogramSamples (customBuckets false a.floatHistograms) ++
    recordOf .customBucketsFloatHistogramSamples (customBuckets true a.floatHistograms) ++
    recordOf .exemplars a.exemplars

/-- What the commit of a sample does under the lock of its series, and whether the sample was added
in order. -/
def commitValue (opts : HeadOptions) (t : ℤ) (v : SampleValue) (s : HeadSeries) :
    Bool × HeadSeries :=
  let (ok, s) :=
    match s.appendableValue t v a.headMaxt a.minValidTime a.oooTimeWindow with
    | .error _ => (false, s)
    | .ok true => (false, s.insert opts.rules t v opts.outOfOrderCapMax)
    | .ok false => s.append opts.rules t v
  (ok, { s with pendingCommit := false })

/-- `inOrderMint` and `inOrderMaxt` of the `appenderCommitContext`, with the head. -/
structure CommitContext where
  head : Head
  inOrderMint : ℤ
  inOrderMaxt : ℤ

/-- One turn of the loops of `commitSamples`, `commitHistograms` and `commitFloatHistograms`. -/
def commitTurn {α : Type} (a : HeadAppender) (value : α → SampleValue) (acc : CommitContext)
    (x : RefValue α) : CommitContext :=
  let (ok, s) := a.commitValue acc.head.opts x.t (value x.v) (acc.head.mem x.ref)
  { head := acc.head.update x.ref fun _ => s
    inOrderMint := if ok then min acc.inOrderMint x.t else acc.inOrderMint
    inOrderMaxt := if ok then max acc.inOrderMaxt x.t else acc.inOrderMaxt }

variable (acc : CommitContext)

def commitSamples : CommitContext :=
  a.samples.foldl (a.commitTurn .float) acc

def commitHistograms : CommitContext :=
  a.histograms.foldl (a.commitTurn .histogram) acc

def commitFloatHistograms : CommitContext :=
  a.floatHistograms.foldl (a.commitTurn .floatHistogram) acc

def commitMetadata : Head :=
  a.metadata.foldl (fun h (ref, m) => h.update ref fun s => { s with metadata := some m }) h

/-- The series at some addresses are not pending any more. -/
def unmark (refs : List ℕ) (h : Head) : Head :=
  refs.foldl (fun h ref => h.update ref fun s => { s with pendingCommit := false }) h

def unmarkCreatedSeriesAsPendingCommit : Head :=
  unmark (a.seriesRefs.map (·.1)) h

def closeAppend : Head :=
  { h with iso := h.iso.closeAppend a.appendID }

/-- `Rollback`, of an appender that is not closed, when the log can take `logged` records. -/
def rollback (a : HeadAppender) (logged : ℕ) (h : Head) : Bool × Head :=
  let h := unmark (a.samples.map (·.ref)) h
  let h := unmark (a.histograms.map (·.ref)) h
  let a := { a with samples := [], exemplars := [], histograms := [], metadata := [] }
  -- Series are created in the head memory regardless of rollback. Thus we have
  -- to log them to the WAL in any case.
  let (ok, h) := h.log logged a.logRecords
  (ok, a.closeAppend (a.unmarkCreatedSeriesAsPendingCommit h))

/-- What `Commit` does after it has written to the log. -/
def commitLogged : Head :=
  let acc : CommitContext := ⟨h, Head.maxInt64, minInt64⟩
  let acc := a.commitFloatHistograms (a.commitHistograms (a.commitSamples acc))
  let h := a.unmarkCreatedSeriesAsPendingCommit (a.commitMetadata acc.head)
  a.closeAppend (h.updateMinMaxTime acc.inOrderMint acc.inOrderMaxt)

/-- `Commit`, of an appender that is not closed, when the log can take `logged` records. If this
fails, it rolls back, and then the log can take `rollbackLogged` records. -/
def commit (logged rollbackLogged : ℕ) (h : Head) : Bool × Head :=
  match h.log logged a.logRecords with
  | (false, h) => (false, (a.rollback rollbackLogged h).2)
  | (true, h) => (true, a.commitLogged h)

end HeadAppender

/-! ### Runs of an appender -/

/-- The calls on an appender. -/
inductive AppendCall
  | append (ref : ℕ) (lset : List Label) (t : ℤ) (v : BitVec 64)
  | appendHistogram (ref : ℕ) (lset : List Label) (t : ℤ) (h fh : Option Histogram)
  | appendExemplar (ref : ℕ) (lset : List Label) (e : Exemplar)
  | updateMetadata (ref : ℕ) (lset : List Label) (m : Metadata)
  | setOptions (discardOutOfOrder : Bool)

namespace AppendCall

def onHead (h : Head) : AppendCall → Outcome ℕ
  | append ref lset t v => a.append h ref lset t v
  | appendHistogram ref lset t hist fh => a.appendHistogram h ref lset t hist fh
  | appendExemplar ref lset e => a.appendExemplar h ref lset e
  | updateMetadata ref lset m => a.updateMetadata h ref lset m
  | setOptions discard => (.ok 0, { a with discardOutOfOrder := discard }, h)

/-- What an `initAppender` does to the time of the head before it gets a `headAppender`. Without a
result, it does not get one for this call. -/
def initHead (h : Head) : AppendCall → Option Head
  | append _ _ t _ => some (h.initTime t)
  | appendHistogram _ _ t _ _ => some (h.initTime t)
  | appendExemplar _ _ e =>
    if !h.opts.enableExemplarStorage ∨ h.opts.maxExemplars ≤ 0 then none else some (h.initTime e.ts)
  | updateMetadata _ _ _ => some h
  | setOptions _ => none

end AppendCall

/-- What `Head.Appender` returns: a `headAppender`, or an `initAppender` that has none yet. -/
def Head.newAppender (h : Head) (pick : Option ℕ) : Option HeadAppender × Head :=
  if h.initialized then
    let (a, h) := h.appender pick
    (some a, h)
  else (none, h)

/-- A call on what `Head.Appender` returned. -/
def AppendCall.call (c : AppendCall) (pick : Option ℕ) :
    Option HeadAppender → Head → Except AppendError ℕ × Option HeadAppender × Head
  | some a, h =>
    let (r, a, h) := c.onHead a h
    (r, some a, h)
  | none, h =>
    match c.initHead h with
    | none => (.ok 0, none, h)
    | some h =>
      let (a, h) := h.appender pick
      let (r, a, h) := c.onHead a h
      (r, some a, h)

/-- The sample that a successful call is about, when it has returned a ref and left a head. A stale
marker is a histogram for a series whose last value was a histogram. -/
def AppendCall.sample (c : AppendCall) (ref : ℕ) (h : Head) : Option (RefValue SampleValue) :=
  match c with
  | append _ _ t v =>
    match HeadAppender.staleHistogram (h.mem ref) v with
    | some (some hist, _) => some ⟨ref, t, .histogram hist⟩
    | some (none, some fh) => some ⟨ref, t, .floatHistogram fh⟩
    | _ => some ⟨ref, t, .float v⟩
  | appendHistogram _ _ t (some hist) _ => some ⟨ref, t, .histogram hist⟩
  | appendHistogram _ _ t none (some fh) => some ⟨ref, t, .floatHistogram fh⟩
  | _ => none

/-- An appender with its head, and the samples it has accepted, in the order of the calls. -/
structure AppendRun where
  app : Option HeadAppender
  head : Head
  accepted : List (RefValue SampleValue)

/-- One more call. -/
def AppendRun.next (pick : Option ℕ) (r : AppendRun) (c : AppendCall) : AppendRun :=
  match c.call pick r.app r.head with
  | (.error _, app, h) => { r with app := app, head := h }
  | (.ok ref, app, h) => ⟨app, h, r.accepted ++ (c.sample ref h).toList⟩

/-- An appender, and a sequence of calls on it. -/
def Head.appendRun (h : Head) (pick : Option ℕ) (calls : List AppendCall) : AppendRun :=
  let (app, h) := h.newAppender pick
  calls.foldl (AppendRun.next pick) ⟨app, h, []⟩

/-- `Commit` on what `Head.Appender` returned. -/
def AppendRun.commit (r : AppendRun) (logged rollbackLogged : ℕ) : Bool × Head :=
  match r.app with
  | none => (true, r.head)
  | some a => a.commit logged rollbackLogged r.head

/-- `Rollback` on what `Head.Appender` returned. -/
def AppendRun.rollback (r : AppendRun) (logged : ℕ) : Bool × Head :=
  match r.app with
  | none => (true, r.head)
  | some a => a.rollback logged r.head

end Prometheus.Tsdb
