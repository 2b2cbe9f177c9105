import Prometheus.Encoding.Decbuf

/-!
# Records of the write-ahead log

`Encoder` and `Decoder` of `tsdb/record/record.go`. A record is a type byte and then the entries,
one after the other. Samples, exemplars and histograms store the reference and the time of the first
entry in front and those of each entry as differences to them.

Floats are their bits, so that decoding one is the identity, and strings are lists of bytes.
-/

namespace Prometheus.Record

open Encoding Decbuf

/-! ### Record types and errors -/

/-- `Type`, without `Unknown`. -/
inductive RecordType
  | series
  | samples
  | tombstones
  | exemplars
  | mmapMarkers
  | metadata
  | histogramSamples
  | floatHistogramSamples
  | customBucketsHistogramSamples
  | customBucketsFloatHistogramSamples
deriving DecidableEq

def RecordType.byte : RecordType → BitVec 8
  | .series => 1
  | .samples => 2
  | .tombstones => 3
  | .exemplars => 4
  | .mmapMarkers => 5
  | .metadata => 6
  | .histogramSamples => 7
  | .floatHistogramSamples => 8
  | .customBucketsHistogramSamples => 9
  | .customBucketsFloatHistogramSamples => 10

inductive DecodeError
  /-- "invalid record type" -/
  | invalidRecordType
  /-- `dec.Err()`, which is `ErrInvalidSize` -/
  | invalidSize
  /-- "decode error after %d samples: %w", or what else the record holds -/
  | decodeErrorAfter (n : ℕ) (what : String)
  /-- "unexpected %d bytes left in entry" -/
  | bytesLeft (n : ℕ)
deriving DecidableEq

/-! ### Entries -/

/-- `labels.Label`. -/
structure Label where
  name : Bytes
  value : Bytes
deriving DecidableEq

structure RefSeries where
  ref : BitVec 64
  labels : List Label
deriving DecidableEq

structure RefSample where
  ref : BitVec 64
  t : BitVec 64
  v : BitVec 64
deriving DecidableEq

structure RefMetadata where
  ref : BitVec 64
  type : BitVec 8
  unit : Bytes
  help : Bytes
deriving DecidableEq

structure RefExemplar where
  ref : BitVec 64
  t : BitVec 64
  v : BitVec 64
  labels : List Label
deriving DecidableEq

structure RefMmapMarker where
  ref : BitVec 64
  mmapRef : BitVec 64
deriving DecidableEq

/-- `tombstones.Interval`. -/
structure Interval where
  mint : BitVec 64
  maxt : BitVec 64
deriving DecidableEq

/-- `tombstones.Stone`. -/
structure Stone where
  ref : BitVec 64
  intervals : List Interval
deriving DecidableEq

/-- `histogram.Span`. -/
structure Span where
  offset : BitVec 32
  length : BitVec 32
deriving DecidableEq

/-- `histogram.Histogram`, where `zeroCount` and `count` are `uint64` and the buckets `int64`, and
`histogram.FloatHistogram`, where they are all floats. -/
structure Histogram where
  counterResetHint : BitVec 8
  schema : BitVec 32
  zeroThreshold : BitVec 64
  zeroCount : BitVec 64
  count : BitVec 64
  sum : BitVec 64
  positiveSpans : List Span
  negativeSpans : List Span
  positiveBuckets : List (BitVec 64)
  negativeBuckets : List (BitVec 64)
  customValues : List (BitVec 64)
deriving DecidableEq

/-- `histogram.IsCustomBucketsSchema`, with `CustomBucketsSchema = -53`. -/
def isCustomBucketsSchema (s : BitVec 32) : Bool := s == -53

/-- `RefHistogramSample` and `RefFloatHistogramSample`. -/
structure RefHistogramSample where
  ref : BitVec 64
  t : BitVec 64
  h : Histogram
deriving DecidableEq

/-- `UsesCustomBuckets`. -/
def RefHistogramSample.usesCustomBuckets (h : RefHistogramSample) : Bool :=
  isCustomBucketsSchema h.h.schema

/-- A slice: its elements and its capacity. -/
structure Slice (α : Type) where
  elems : List α
  cap : ℕ
  le : elems.length ≤ cap

abbrev Slice.nil {α : Type} : Slice α := ⟨[], 0, Nat.le_refl 0⟩

/-- `unitMetaName`, the bytes of "UNIT". -/
def unitMetaName : Bytes := [0x55, 0x4e, 0x49, 0x54]

/-- `helpMetaName`, the bytes of "HELP". -/
def helpMetaName : Bytes := [0x48, 0x45, 0x4c, 0x50]

/-! ### Encoder -/

/-- `EncodeLabels`. -/
def encodeLabels (lbls : List Label) : Bytes :=
  putUvarintLen lbls.length ++ lbls.flatMap fun l => putUvarintStr l.name ++ putUvarintStr l.value

/-- The list of spans in a histogram. -/
def encodeSpans (spans : List Span) : Bytes :=
  putUvarintLen spans.length ++
    spans.flatMap fun s => putVarint64 (s.offset.signExtend 64) ++ putUvarint32 s.length

/-- A list of numbers in a histogram. -/
def encodeNumbers (put : BitVec 64 → Bytes) (xs : List (BitVec 64)) : Bytes :=
  putUvarintLen xs.length ++ xs.flatMap put

/-- What `EncodeHistogram` and `EncodeFloatHistogram` have in common. They differ in how they write
the counts and the buckets. -/
def encodeHistogramWith (putCount putBucket : BitVec 64 → Bytes) (h : Histogram) : Bytes :=
  [h.counterResetHint] ++ (putVarint64 (h.schema.signExtend 64) ++ (putBE64 h.zeroThreshold ++
  (putCount h.zeroCount ++ (putCount h.count ++ (putBE64 h.sum ++
  (encodeSpans h.positiveSpans ++ (encodeSpans h.negativeSpans ++
  (encodeNumbers putBucket h.positiveBuckets ++ (encodeNumbers putBucket h.negativeBuckets ++
  if isCustomBucketsSchema h.schema then encodeNumbers putBE64 h.customValues else [])))))))))

def encodeHistogram : Histogram → Bytes := encodeHistogramWith putUvarint64 putVarint64

def encodeFloatHistogram : Histogram → Bytes := encodeHistogramWith putBE64 putBE64

/-- The differences in front of an entry. -/
def putDeltas (baseRef baseTime ref t : BitVec 64) : Bytes :=
  putVarint64 (ref - baseRef) ++ putVarint64 (t - baseTime)

namespace Encoder

/-- `Series`. -/
def series (series : List RefSeries) (b : Bytes) : Bytes :=
  b ++ [RecordType.series.byte] ++ series.flatMap fun s => putBE64 s.ref ++ encodeLabels s.labels

/-- `Metadata`. -/
def metadata (metadata : List RefMetadata) (b : Bytes) : Bytes :=
  b ++ [RecordType.metadata.byte] ++ metadata.flatMap fun m =>
    putUvarint64 m.ref ++ ([m.type] ++ (putUvarintLen 2 ++
      (putUvarintStr unitMetaName ++ (putUvarintStr m.unit ++
      (putUvarintStr helpMetaName ++ putUvarintStr m.help)))))

/-- `Samples`. -/
def samples (samples : List RefSample) (b : Bytes) : Bytes :=
  match samples with
  | [] => b ++ [RecordType.samples.byte]
  | first :: _ =>
    b ++ [RecordType.samples.byte] ++ (putBE64 first.ref ++ putBE64 first.t ++
      samples.flatMap fun s => putDeltas first.ref first.t s.ref s.t ++ putBE64 s.v)

/-- `Tombstones`. -/
def tombstones (tstones : List Stone) (b : Bytes) : Bytes :=
  b ++ [RecordType.tombstones.byte] ++ tstones.flatMap fun s =>
    s.intervals.flatMap fun iv => putBE64 s.ref ++ (putVarint64 iv.mint ++ putVarint64 iv.maxt)

/-- `Exemplars`. -/
def exemplars (exemplars : List RefExemplar) (b : Bytes) : Bytes :=
  match exemplars with
  | [] => b ++ [RecordType.exemplars.byte]
  | first :: _ =>
    b ++ [RecordType.exemplars.byte] ++ (putBE64 first.ref ++ putBE64 first.t ++
      exemplars.flatMap fun ex =>
        putDeltas first.ref first.t ex.ref ex.t ++ (putBE64 ex.v ++ encodeLabels ex.labels))

/-- `MmapMarkers`. -/
def mmapMarkers (markers : List RefMmapMarker) (b : Bytes) : Bytes :=
  b ++ [RecordType.mmapMarkers.byte] ++ markers.flatMap fun s => putBE64 s.ref ++ putBE64 s.mmapRef

/-- The loop of `HistogramSamples`: what it appends to the buffer, and the histograms it sets aside.
-/
def histogramLoop (enc : Histogram → Bytes) (first : RefHistogramSample) :
    List RefHistogramSample → Bytes × List RefHistogramSample
  | [] => ([], [])
  | h :: hs =>
    let (bs, customBucketHistograms) := histogramLoop enc first hs
    if h.usesCustomBuckets then (bs, h :: customBucketHistograms)
    else (putDeltas first.ref first.t h.ref h.t ++ enc h.h ++ bs, customBucketHistograms)

/-- What `HistogramSamples` and `FloatHistogramSamples` have in common. If all histograms are set
aside, the buffer is reset, so that not even `b` is left. -/
def histogramSamplesWith (type : RecordType) (enc : Histogram → Bytes)
    (histograms : List RefHistogramSample) (b : Bytes) : Bytes × List RefHistogramSample :=
  match histograms with
  | [] => (b ++ [type.byte], [])
  | first :: _ =>
    let (bs, customBucketHistograms) := histogramLoop enc first histograms
    if histograms.length = customBucketHistograms.length then ([], customBucketHistograms)
    else
      (b ++ [type.byte] ++ (putBE64 first.ref ++ putBE64 first.t ++ bs), customBucketHistograms)

def histogramSamples : List RefHistogramSample → Bytes → Bytes × List RefHistogramSample :=
  histogramSamplesWith .histogramSamples encodeHistogram

def floatHistogramSamples : List RefHistogramSample → Bytes → Bytes × List RefHistogramSample :=
  histogramSamplesWith .floatHistogramSamples encodeFloatHistogram

/-- What `CustomBucketsHistogramSamples` and `CustomBucketsFloatHistogramSamples` have in common. -/
def customBucketsSamplesWith (type : RecordType) (enc : Histogram → Bytes)
    (histograms : List RefHistogramSample) (b : Bytes) : Bytes :=
  match histograms with
  | [] => b ++ [type.byte]
  | first :: _ =>
    b ++ [type.byte] ++ (putBE64 first.ref ++ putBE64 first.t ++
      histograms.flatMap fun h => putDeltas first.ref first.t h.ref h.t ++ enc h.h)

def customBucketsHistogramSamples : List RefHistogramSample → Bytes → Bytes :=
  customBucketsSamplesWith .customBucketsHistogramSamples encodeHistogram

def customBucketsFloatHistogramSamples : List RefHistogramSample → Bytes → Bytes :=
  customBucketsSamplesWith .customBucketsFloatHistogramSamples encodeFloatHistogram

end Encoder

/-! ### Decoder -/

variable [Uvarint]

/-- `DecodeLabels`. -/
def decodeLabels : Get (List Label) := do
  times (← uvarintLen) do
    let name ← uvarintBytes
    let value ← uvarintBytes
    return ⟨name, value⟩

def decodeSpans : Get (List Span) := do
  times (← uvarintLen) do
    let offset ← varint64
    let length ← uvarint32
    return ⟨offset.setWidth 32, length⟩

def decodeNumbers (get : Get (BitVec 64)) : Get (List (BitVec 64)) := do
  times (← uvarintLen) get

/-- What `DecodeHistogram` and `DecodeFloatHistogram` have in common. -/
def decodeHistogramWith (getCount getBucket : Get (BitVec 64)) : Get Histogram := do
  let counterResetHint ← byte
  let schema ← varint64
  let zeroThreshold ← be64
  let zeroCount ← getCount
  let count ← getCount
  let sum ← be64
  let positiveSpans ← decodeSpans
  let negativeSpans ← decodeSpans
  let positiveBuckets ← decodeNumbers getBucket
  let negativeBuckets ← decodeNumbers getBucket
  let customValues ←
    if isCustomBucketsSchema (schema.setWidth 32) then decodeNumbers be64 else pure []
  return {
    counterResetHint, schema := schema.setWidth 32, zeroThreshold, zeroCount, count, sum,
    positiveSpans, negativeSpans, positiveBuckets, negativeBuckets, customValues }

def decodeHistogram : Get Histogram := decodeHistogramWith uvarint64 varint64

def decodeFloatHistogram : Get Histogram := decodeHistogramWith be64 be64

/-- The loop over the fields of one metadata entry. A field of another name is skipped. -/
def decodeFields : ℕ → Bytes → Bytes → Get (Bytes × Bytes)
  | 0, unit, help => pure (unit, help)
  | n + 1, unit, help => do
    let fieldName ← uvarintBytes
    let fieldValue ← uvarintBytes
    if fieldName = unitMetaName then decodeFields n fieldValue help
    else if fieldName = helpMetaName then decodeFields n unit fieldValue
    else decodeFields n unit help

/-- The frame of all decoders: `body` appends the entries to the slice that it is given. -/
def decodeRecord {α : Type} (types : List RecordType) (fail : ℕ → DecodeError)
    (body : Get (List α)) (rec : Bytes) : Option (Except DecodeError (List α)) := do
  let (t, dec) ← byte ⟨rec, false⟩
  if t ∉ types.map RecordType.byte then
    return .error .invalidRecordType
  let (out, dec) ← body dec
  if dec.E then
    return .error (fail out.length)
  if dec.B.length > 0 then
    return .error (.bytesLeft dec.B.length)
  return .ok out

/-- Records whose entries are differences to a base. If there is nothing after the type byte, there
is no base either, and `out` is returned as it is. -/
def withBase {α : Type} (out : List α) (loop : BitVec 64 → BitVec 64 → Get (List α)) :
    Get (List α) := fun dec =>
  if dec.B.length = 0 then some (out, dec)
  else
    (do
      let baseRef ← be64
      let baseTime ← be64
      loop baseRef baseTime : Get (List α)) dec

/-- The differences in front of an entry, as reference and time. -/
def getDeltas (baseRef baseTime : BitVec 64) : Get (BitVec 64 × BitVec 64) := do
  let dref ← varint64
  let dtime ← varint64
  return (baseRef + dref, baseTime + dtime)

namespace Decoder

variable (rec : Bytes)

/-- `Series`. -/
def series (series : List RefSeries) : Option (Except DecodeError (List RefSeries)) :=
  decodeRecord [.series] (fun _ => .invalidSize) (entries (do
      let ref ← be64
      let labels ← decodeLabels
      return ⟨ref, labels⟩) series) rec

/-- `Metadata`. -/
def metadata (metadata : List RefMetadata) : Option (Except DecodeError (List RefMetadata)) :=
  decodeRecord [.metadata] (fun _ => .invalidSize) (entries (do
      let ref ← uvarint64
      let type ← byte
      let numFields ← uvarintLen
      let (unit, help) ← decodeFields numFields [] []
      return ⟨ref, type, unit, help⟩) metadata) rec

/-- How many samples `Samples` expects in the rest of a record: at least one byte for each
difference and eight for the value. -/
def minSize (dec : Decbuf) : ℕ := dec.B.length / (1 + 1 + 8)

/-- `Samples`. If the slice has no room for the samples that are expected, a new one replaces it. -/
def samples (samples : Slice RefSample) : Option (Except DecodeError (List RefSample)) :=
  decodeRecord [.samples] (.decodeErrorAfter · "samples")
    (withBase samples.elems fun baseRef baseTime => fun dec =>
      entries (do
        let (ref, t) ← getDeltas baseRef baseTime
        let v ← be64
        return ⟨ref, t, v⟩) (if samples.cap < minSize dec then [] else samples.elems) dec) rec

/-- `Tombstones`. -/
def tombstones (tstones : List Stone) : Option (Except DecodeError (List Stone)) :=
  decodeRecord [.tombstones] (fun _ => .invalidSize) (entries (do
      let ref ← be64
      let mint ← varint64
      let maxt ← varint64
      return ⟨ref, [⟨mint, maxt⟩]⟩) tstones) rec

/-- `Exemplars` and `ExemplarsFromBuffer`. -/
def exemplars (exemplars : List RefExemplar) : Option (Except DecodeError (List RefExemplar)) :=
  decodeRecord [.exemplars] (.decodeErrorAfter · "exemplars")
    (withBase exemplars fun baseRef baseTime =>
      entries (do
        let (ref, t) ← getDeltas baseRef baseTime
        let v ← be64
        let labels ← decodeLabels
        return ⟨ref, t, v, labels⟩) exemplars) rec

/-- `MmapMarkers`. -/
def mmapMarkers (markers : List RefMmapMarker) : Option (Except DecodeError (List RefMmapMarker)) :=
  decodeRecord [.mmapMarkers] (.decodeErrorAfter · "mmap markers") (entries (do
      let ref ← be64
      let mmapRef ← be64
      return ⟨ref, mmapRef⟩) markers) rec

/-- What `HistogramSamples` and `FloatHistogramSamples` have in common. -/
def histogramSamplesWith (types : List RecordType) (decode : Get Histogram) (rec : Bytes)
    (histograms : List RefHistogramSample) :
    Option (Except DecodeError (List RefHistogramSample)) :=
  decodeRecord types (.decodeErrorAfter · "histograms") (withBase histograms fun baseRef baseTime =>
      entries (do
        let (ref, t) ← getDeltas baseRef baseTime
        let h ← decode
        return ⟨ref, t, h⟩) histograms) rec

def histogramSamples : Bytes → List RefHistogramSample →
    Option (Except DecodeError (List RefHistogramSample)) :=
  histogramSamplesWith [.histogramSamples, .customBucketsHistogramSamples] decodeHistogram

def floatHistogramSamples : Bytes → List RefHistogramSample →
    Option (Except DecodeError (List RefHistogramSample)) :=
  histogramSamplesWith [.floatHistogramSamples, .customBucketsFloatHistogramSamples]
    decodeFloatHistogram

end Decoder

end Prometheus.Record
