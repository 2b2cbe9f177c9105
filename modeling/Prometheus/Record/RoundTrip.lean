import Prometheus.Record.Format

/-!
# Decoding a record gives back what was encoded

Each entry is read back by `Gets` from the reads of its fields, each record by `Gets.entries`, and
the differences cancel modulo `2 ^ 64`. Two things get lost. `Decoder.samples` replaces a slice that
is too small for the samples of the record by a new one, together with what was in it. And a
histogram whose schema is not the one of custom buckets is stored without its custom values.
-/

namespace Prometheus.Record

open Encoding Chunkenc BitList List RefHistogramSample Encoder Gets

/-! ### Lengths

A length in Go is an `int`, so it is below `2 ^ 63`. -/

/-- The lengths fit into an `int`, as those of any slice do. -/
def LabelsFit (lbls : List Label) : Prop :=
  lbls.length < 2 ^ 63 ∧ ∀ l ∈ lbls, l.name.length < 2 ^ 63 ∧ l.value.length < 2 ^ 63

/-- The same for a metadata record. -/
def MetadataFits (m : RefMetadata) : Prop := m.unit.length < 2 ^ 63 ∧ m.help.length < 2 ^ 63

/-- The same for the slices of a histogram. -/
structure HistogramFits (h : Histogram) : Prop where
  positiveSpans : h.positiveSpans.length < 2 ^ 63
  negativeSpans : h.negativeSpans.length < 2 ^ 63
  positiveBuckets : h.positiveBuckets.length < 2 ^ 63
  negativeBuckets : h.negativeBuckets.length < 2 ^ 63
  customValues : h.customValues.length < 2 ^ 63

/-! ### The frame of a record -/

variable {type : RecordType} {types : List RecordType} {α : Type}

lemma decodeRecord_ok
    (htype : type ∈ types) (fail : ℕ → DecodeError) {body : Get (List α)}
    {bs : Bytes} {out : List α}
    (hbody : body ⟨bs, false⟩ = some (out, ⟨[], false⟩)) :
    decodeRecord types fail body (type.byte :: bs) = some (.ok out) := by
  have hbyte : Decbuf.byte ⟨type.byte :: bs, false⟩ = some (type.byte, ⟨bs, false⟩) :=
    gets_byte type.byte bs
  simpa [decodeRecord, hbyte, hbody] using ⟨type, htype, rfl⟩

lemma withBase_nil (out : List α) (loop : BitVec 64 → BitVec 64 → Get (List α)) :
    withBase out loop ⟨[], false⟩ = some (out, ⟨[], false⟩) := rfl

lemma withBase_base (out : List α) (loop : BitVec 64 → BitVec 64 → Get (List α))
    (baseRef baseTime : BitVec 64) (bs : Bytes) :
    withBase out loop ⟨putBE64 baseRef ++ putBE64 baseTime ++ bs, false⟩ =
      loop baseRef baseTime ⟨bs, false⟩ := by
  have hlen : (putBE64 baseRef).length = 8 := length_bytesOf 8 _
  have hne : ¬ (putBE64 baseRef ++ putBE64 baseTime ++ bs).length = 0 := by
    simp [hlen]
  unfold withBase
  rw [if_neg hne, append_assoc, (gets_be64 baseRef).bind_eq, (gets_be64 baseTime).bind_eq]

/-! ### Parts of the entries -/

variable (baseRef baseTime ref t : BitVec 64)

lemma gets_deltas [Uvarint] :
    Gets (getDeltas baseRef baseTime) (putDeltas baseRef baseTime ref t) (ref, t) := by
  have h := (gets_varint64 (ref - baseRef)).bind
    (f := fun dref => do return (baseRef + dref, baseTime + (← Decbuf.varint64)))
    (gets_varint64 (t - baseTime)).map
  rwa [add_sub_cancel, add_sub_cancel] at h

lemma gets_labels [Uvarint] {lbls : List Label} (h : LabelsFit lbls) :
    Gets decodeLabels (encodeLabels lbls) lbls := by
  refine (gets_uvarintLen h.1).bind (times fun l hl => ?_)
  exact (gets_uvarintBytes (h.2 l hl).1).bind (gets_uvarintBytes (h.2 l hl).2).map

lemma setWidth_signExtend (x : BitVec 32) : (x.signExtend 64).setWidth 32 = x := by
  ext i hi
  simp [BitVec.getLsbD_signExtend, hi]
  omega

lemma gets_spans [Uvarint] {spans : List Span} (h : spans.length < 2 ^ 63) :
    Gets decodeSpans (encodeSpans spans) spans := by
  refine (gets_uvarintLen h).bind (times fun s _ => ?_)
  have hs := (gets_varint64 (s.offset.signExtend 64)).bind
    (f := fun offset => do return (⟨offset.setWidth 32, ← Decbuf.uvarint32⟩ : Span))
    (gets_uvarint32 s.length).map
  rwa [setWidth_signExtend] at hs

lemma gets_numbers [Uvarint] {get : Get (BitVec 64)} {put : BitVec 64 → Bytes}
    (hget : ∀ x, Gets get (put x) x) {xs : List (BitVec 64)} (h : xs.length < 2 ^ 63) :
    Gets (decodeNumbers get) (encodeNumbers put xs) xs :=
  (gets_uvarintLen h).bind (times fun x _ => hget x)

/-- What a record keeps of a histogram. -/
def Histogram.stored (h : Histogram) : Histogram :=
  if isCustomBucketsSchema h.schema then h else { h with customValues := [] }

variable {h : Histogram}

lemma gets_histogramWith [Uvarint] {getCount getBucket : Get (BitVec 64)}
    {putCount putBucket : BitVec 64 → Bytes} (hcount : ∀ x, Gets getCount (putCount x) x)
    (hbucket : ∀ x, Gets getBucket (putBucket x) x) (hfits : HistogramFits h) :
    Gets (decodeHistogramWith getCount getBucket) (encodeHistogramWith putCount putBucket h)
      h.stored := by
  refine (gets_byte _).bind ((gets_varint64 _).bind ((gets_be64 _).bind ((hcount _).bind
    ((hcount _).bind ((gets_be64 _).bind ((gets_spans hfits.positiveSpans).bind
    ((gets_spans hfits.negativeSpans).bind ((gets_numbers hbucket hfits.positiveBuckets).bind
    ((gets_numbers hbucket hfits.negativeBuckets).bind ?_)))))))))
  rw [setWidth_signExtend, Histogram.stored]
  split_ifs
  · exact (gets_numbers gets_be64 hfits.customValues).map
  · exact pure _

lemma gets_histogram [Uvarint] (hfits : HistogramFits h) :
    Gets decodeHistogram (encodeHistogram h) h.stored :=
  gets_histogramWith gets_uvarint64 gets_varint64 hfits

lemma gets_floatHistogram [Uvarint] (hfits : HistogramFits h) :
    Gets decodeFloatHistogram (encodeFloatHistogram h) h.stored :=
  gets_histogramWith gets_be64 gets_be64 hfits

/-! ### Records -/

lemma putBE64_append_ne_nil (x : BitVec 64) (bs : Bytes) : putBE64 x ++ bs ≠ [] := by
  have hlen : (putBE64 x).length = 8 := length_bytesOf 8 _
  rw [ne_eq, ← length_eq_zero_iff, length_append]
  omega

lemma putUvarint_ne_nil (x : BitVec 64) : putUvarint x ≠ [] := by
  unfold putUvarint putUvarintLoop
  split_ifs <;> exact cons_ne_nil _ _

lemma putDeltas_append_ne_nil (bs : Bytes) : putDeltas baseRef baseTime ref t ++ bs ≠ [] := by
  simp [putDeltas, putVarint64, putVarint, putUvarint_ne_nil]

lemma decode_series [Uvarint] {xs : List RefSeries} (hfits : ∀ s ∈ xs, LabelsFit s.labels)
    (pre : List RefSeries) : Decoder.series (series xs []) pre = some (.ok (pre ++ xs)) := by
  refine decodeRecord_ok (mem_singleton_self _) _ (entries (fun s hs => ⟨?_, ?_⟩) pre)
  · exact (gets_be64 s.ref).bind (gets_labels (hfits s hs)).map
  · exact putBE64_append_ne_nil s.ref _

lemma gets_fields [Uvarint] {m : RefMetadata} (hfits : MetadataFits m) :
    Gets (decodeFields 2 [] [])
      (putUvarintStr unitMetaName ++ (putUvarintStr m.unit ++
        (putUvarintStr helpMetaName ++ putUvarintStr m.help))) (m.unit, m.help) := by
  refine (gets_uvarintBytes (by decide)).bind ((gets_uvarintBytes hfits.1).bind ?_)
  rw [if_pos rfl]
  refine (gets_uvarintBytes (by decide)).bind ?_
  exact (gets_uvarintBytes hfits.2).map

lemma decode_metadata [Uvarint] {xs : List RefMetadata} (hfits : ∀ m ∈ xs, MetadataFits m)
    (pre : List RefMetadata) :
    Decoder.metadata (metadata xs []) pre = some (.ok (pre ++ xs)) := by
  refine decodeRecord_ok (mem_singleton_self _) _ (entries (fun m hm => ⟨?_, ?_⟩) pre)
  · exact (gets_uvarint64 m.ref).bind ((gets_byte m.type).bind
      ((gets_uvarintLen (by norm_num)).bind (gets_fields (hfits m hm)).map))
  · simp [putUvarint64, putUvarint_ne_nil]

lemma decode_mmapMarkers (xs pre : List RefMmapMarker) :
    Decoder.mmapMarkers (mmapMarkers xs []) pre = some (.ok (pre ++ xs)) := by
  refine decodeRecord_ok (mem_singleton_self _) _ (entries (fun m _ => ⟨?_, ?_⟩) pre)
  · exact (gets_be64 m.ref).bind (gets_be64 m.mmapRef).map
  · exact putBE64_append_ne_nil m.ref _

/-- A stone is written as one stone for each of its intervals. -/
def Stone.split (s : Stone) : List Stone := s.intervals.map fun iv => ⟨s.ref, [iv]⟩

lemma decode_tombstones [Uvarint] (xs pre : List Stone) :
    Decoder.tombstones (tombstones xs []) pre = some (.ok (pre ++ xs.flatMap Stone.split)) := by
  let enc (s : Stone) : Bytes :=
    s.intervals.flatMap fun iv => putBE64 s.ref ++ (putVarint64 iv.mint ++ putVarint64 iv.maxt)
  have hsplit : xs.flatMap enc = (xs.flatMap Stone.split).flatMap enc := by
    simp [flatMap_assoc, Stone.split, flatMap_map, enc]
  refine decodeRecord_ok (mem_singleton_self _) _ ?_
  show entries _ pre ⟨xs.flatMap enc, false⟩ = _
  rw [hsplit]
  refine entries (fun s hs => ?_) pre
  obtain ⟨s', -, hs⟩ := mem_flatMap.1 hs
  obtain ⟨iv, -, rfl⟩ := mem_map.1 hs
  have henc : enc ⟨s'.ref, [iv]⟩ =
      putBE64 s'.ref ++ (putVarint64 iv.mint ++ putVarint64 iv.maxt) := by
    simp [enc]
  rw [henc]
  exact ⟨(gets_be64 s'.ref).bind ((gets_varint64 iv.mint).bind (gets_varint64 iv.maxt).map),
    putBE64_append_ne_nil s'.ref _⟩

/-- Stones with one interval each are not split. -/
lemma flatMap_split_of_single {xs : List Stone} (h : ∀ s ∈ xs, s.intervals.length = 1) :
    xs.flatMap Stone.split = xs := by
  induction xs with
  | nil => rfl
  | cons s xs ih =>
    obtain ⟨hs, hxs⟩ := forall_mem_cons.1 h
    obtain ⟨iv, hiv⟩ := length_eq_one_iff.1 hs
    have hsplit : s.split = [s] := by
      rw [Stone.split, hiv, map_singleton, ← hiv]
    rw [flatMap_cons, hsplit, ih hxs, singleton_append]

/-- A record with a base: what is left to show is how the entries are read back. -/
lemma decode_withBase {β : Type}
    (htype : type ∈ types) (fail : ℕ → DecodeError) {p : BitVec 64 → BitVec 64 → Get α}
    {enc : β → Bytes} {f : β → α} {baseRef baseTime : BitVec 64} {xs : List β}
    (h : ∀ x ∈ xs, Gets (p baseRef baseTime) (enc x) (f x) ∧ enc x ≠ []) (out : List α) :
    decodeRecord types fail (withBase out fun baseRef baseTime => entries (p baseRef baseTime) out)
      (type.byte :: (putBE64 baseRef ++ putBE64 baseTime ++ xs.flatMap enc)) =
      some (.ok (out ++ xs.map f)) := by
  refine decodeRecord_ok htype fail ?_
  rw [withBase_base]
  exact entries_map h out

lemma decode_exemplars [Uvarint] {xs : List RefExemplar} (hfits : ∀ ex ∈ xs, LabelsFit ex.labels)
    (pre : List RefExemplar) :
    Decoder.exemplars (exemplars xs []) pre = some (.ok (pre ++ xs)) := by
  cases xs with
  | nil =>
    rw [append_nil]
    exact decodeRecord_ok (mem_singleton_self _) _ (withBase_nil pre _)
  | cons first rest =>
    suffices h : Decoder.exemplars (exemplars (first :: rest) []) pre =
        some (.ok (pre ++ (first :: rest).map id)) by rwa [map_id] at h
    refine decode_withBase (mem_singleton_self _) _ (fun ex hex => ⟨?_, ?_⟩) pre
    · exact (gets_deltas first.ref first.t ex.ref ex.t).bind
        ((gets_be64 ex.v).bind (gets_labels (hfits ex hex)).map)
    · exact putDeltas_append_ne_nil _ _ _ _ _

variable (xs : List RefSample)

variable (pre : Slice RefSample)

/-- The elements that `Decoder.samples` keeps of the slice it appends to. A record starts with a
type byte and sixteen bytes for the base. -/
def kept : List RefSample :=
  if pre.cap < ((samples xs []).length - 17) / 10 then [] else pre.elems

lemma decode_samples [Uvarint] : Decoder.samples (samples xs []) pre =
    some (.ok (kept xs pre ++ xs)) := by
  cases xs with
  | nil =>
    have hkept : kept [] pre = pre.elems := if_neg (by simp [samples])
    rw [append_nil, hkept]
    exact decodeRecord_ok (mem_singleton_self _) _ (withBase_nil pre.elems _)
  | cons first rest =>
    let enc (s : RefSample) : Bytes := putDeltas first.ref first.t s.ref s.t ++ putBE64 s.v
    have hlen : (samples (first :: rest) []).length - 17 =
        ((first :: rest).flatMap enc).length := by
      have h8 (x : BitVec 64) : (putBE64 x).length = 8 := length_bytesOf 8 _
      simp only [samples, enc, length_append, h8, length_nil, length_singleton]
      omega
    refine decodeRecord_ok (mem_singleton_self _) _
      ((withBase_base _ _ first.ref first.t ((first :: rest).flatMap enc)).trans ?_)
    rw [kept, hlen]
    refine entries (fun s _ => ⟨?_, putDeltas_append_ne_nil _ _ _ _ _⟩) _
    exact (gets_deltas first.ref first.t s.ref s.t).bind (gets_be64 s.v).map

/-! ### Histograms -/

lemma histogramLoop_eq (enc : Histogram → Bytes) (first : RefHistogramSample)
    (hs : List RefHistogramSample) :
    histogramLoop enc first hs = ((hs.filter fun h => !h.usesCustomBuckets).flatMap fun h =>
          putDeltas first.ref first.t h.ref h.t ++ enc h.h,
        hs.filter usesCustomBuckets) := by
  induction hs with
  | nil => rfl
  | cons h hs ih =>
    rw [histogramLoop, ih]
    by_cases hc : h.usesCustomBuckets = true
    · simp [hc]
    · simp [hc]

/-- A histogram sample as a record keeps it. -/
def RefHistogramSample.stored (h : RefHistogramSample) : RefHistogramSample :=
  { h with h := h.h.stored }

variable {h : RefHistogramSample}

lemma stored_of_usesCustomBuckets (hc : h.usesCustomBuckets = true) : h.stored = h := by
  rw [usesCustomBuckets] at hc
  rw [stored, Histogram.stored, if_pos hc]

lemma stored_eq_self_iff (hc : ¬ h.usesCustomBuckets = true) :
    h.stored = h ↔ h.h.customValues = [] := by
  rw [usesCustomBuckets] at hc
  rw [stored, Histogram.stored, if_neg hc]
  constructor
  · intro heq
    rw [← heq]
  · intro hnil
    rw [← hnil]

section Histograms

variable {enc : Histogram → Bytes} {decode : Get Histogram}
  (hget : ∀ h, HistogramFits h → Gets decode (enc h) h.stored)
  {types : List RecordType} {type : RecordType} (htype : type ∈ types)
  {xs : List RefHistogramSample} (hfits : ∀ h ∈ xs, HistogramFits h.h)
  (pre : List RefHistogramSample)
include hget htype hfits

lemma decode_histograms [Uvarint] (baseRef baseTime : BitVec 64) :
    Decoder.histogramSamplesWith types decode
      (type.byte :: (putBE64 baseRef ++ putBE64 baseTime ++
        xs.flatMap fun h => putDeltas baseRef baseTime h.ref h.t ++ enc h.h)) pre =
      some (.ok (pre ++ xs.map stored)) := by
  refine decode_withBase htype _ (fun h hh => ⟨?_, ?_⟩) pre
  · exact (gets_deltas baseRef baseTime h.ref h.t).bind (hget h.h (hfits h hh)).map
  · exact putDeltas_append_ne_nil _ _ _ _ _

/-- A record of histograms with custom buckets only. -/
lemma decode_customBuckets [Uvarint] (hcustom : ∀ h ∈ xs, h.usesCustomBuckets = true) :
    Decoder.histogramSamplesWith types decode (customBucketsSamplesWith type enc xs []) pre =
      some (.ok (pre ++ xs)) := by
  cases xs with
  | nil =>
    rw [append_nil]
    exact decodeRecord_ok htype _ (withBase_nil pre _)
  | cons first rest =>
    have hstored : (first :: rest).map stored = first :: rest :=
      (map_congr_left fun h hh => stored_of_usesCustomBuckets (hcustom h hh)).trans (map_id _)
    have h := decode_histograms hget htype hfits pre first.ref first.t
    rwa [hstored] at h

/-- A record with the histograms of a mixed list that have no custom buckets. -/
lemma decode_exponential [Uvarint] (hsome : xs = [] ∨ ∃ h ∈ xs, ¬ h.usesCustomBuckets = true) :
    Decoder.histogramSamplesWith types decode (histogramSamplesWith type enc xs []).1 pre =
      some (.ok (pre ++ (xs.filter fun h => !h.usesCustomBuckets).map stored)) := by
  cases xs with
  | nil =>
    rw [filter_nil, map_nil, append_nil]
    exact decodeRecord_ok htype _ (withBase_nil pre _)
  | cons first rest =>
    obtain ⟨h, hh, hc⟩ := hsome.resolve_left (cons_ne_nil _ _)
    have hlen : ¬ (first :: rest).length = ((first :: rest).filter usesCustomBuckets).length :=
      fun heq => hc (length_filter_eq_length_iff.1 heq.symm h hh)
    simp only [histogramSamplesWith, histogramLoop_eq, if_neg hlen]
    exact decode_histograms hget htype
      (fun h hh => hfits h (mem_filter.1 hh).1) pre first.ref first.t

end Histograms

/-- The histograms that are set aside. -/
lemma histogramSamplesWith_snd (type : RecordType) (enc : Histogram → Bytes)
    (xs : List RefHistogramSample) (b : Bytes) :
    (histogramSamplesWith type enc xs b).2 = xs.filter usesCustomBuckets := by
  cases xs with
  | nil => rfl
  | cons first rest =>
    simp only [histogramSamplesWith, histogramLoop_eq]
    split_ifs <;> rfl

variable {xs : List RefHistogramSample} {enc : Histogram → Bytes}

/-- If all histograms are set aside, nothing is left in the buffer. -/
lemma histogramSamplesWith_reset (hne : xs ≠ []) (hall : ∀ h ∈ xs, h.usesCustomBuckets = true)
    (b : Bytes) : (histogramSamplesWith type enc xs b).1 = [] := by
  cases xs with
  | nil => exact absurd rfl hne
  | cons first rest =>
    have hlen : (first :: rest).length = ((first :: rest).filter usesCustomBuckets).length :=
      (length_filter_eq_length_iff.2 hall).symm
    simp only [histogramSamplesWith, histogramLoop_eq, if_pos hlen]

/-- The records `encode` and `encodeCustom` give back the list of histograms `xs`, except for custom
values of histograms without custom buckets. -/
structure HistogramsUndone
    (encode : List RefHistogramSample → Bytes → Bytes × List RefHistogramSample)
    (encodeCustom : List RefHistogramSample → Bytes → Bytes)
    (decode : Bytes → List RefHistogramSample →
      Option (Except DecodeError (List RefHistogramSample)))
    (xs pre : List RefHistogramSample) : Prop where
  /-- The rest consists of the histograms with custom buckets. -/
  rest : (encode xs []).2 = xs.filter RefHistogramSample.usesCustomBuckets
  /-- The rest is read back from its record. -/
  custom : decode (encodeCustom (encode xs []).2 []) pre = some (.ok (pre ++ (encode xs []).2))
  /-- The other histograms are read back from the first record if, and only if, none has custom
  values. -/
  exponential : xs = [] ∨ (∃ h ∈ xs, ¬ h.usesCustomBuckets = true) →
    (decode (encode xs []).1 pre =
        some (.ok (pre ++ xs.filter fun h => !h.usesCustomBuckets)) ↔
      ∀ h ∈ xs, ¬ h.usesCustomBuckets = true → h.h.customValues = [])
  /-- If there are no others, there is no first record. -/
  reset : xs ≠ [] → (∀ h ∈ xs, h.usesCustomBuckets = true) → (encode xs []).1 = []

lemma map_eq_self_iff {f : α → α} {l : List α} : l.map f = l ↔ ∀ a ∈ l, f a = a := by
  induction l with
  | nil => simp
  | cons a l ih => simp [ih]

lemma histogramsUndone [Uvarint] {get : Get Histogram}
    (hget : ∀ h, HistogramFits h → Gets get (enc h) h.stored) {typeCustom : RecordType}
    (htype : type ∈ types)
    (hcustom : typeCustom ∈ types)
    (hfits : ∀ h ∈ xs, HistogramFits h.h) (pre : List RefHistogramSample) :
    HistogramsUndone (histogramSamplesWith type enc)
      (customBucketsSamplesWith typeCustom enc)
      (Decoder.histogramSamplesWith types get) xs pre where
  rest := histogramSamplesWith_snd _ _ _ _
  custom := by
    rw [histogramSamplesWith_snd]
    exact decode_customBuckets hget hcustom (fun h hh => hfits h (mem_filter.1 hh).1) pre
      fun h hh => (mem_filter.1 hh).2
  exponential hsome := by
    rw [decode_exponential hget htype hfits pre hsome, Option.some_inj, Except.ok.injEq,
      append_cancel_left_eq, map_eq_self_iff]
    constructor
    · intro hself h hh hc
      exact (stored_eq_self_iff hc).1 (hself h (mem_filter.2 ⟨hh, by simpa using hc⟩))
    · intro hnil h hh
      obtain ⟨hh, hc⟩ := mem_filter.1 hh
      have hc : ¬ h.usesCustomBuckets = true := by simpa using hc
      exact (stored_eq_self_iff hc).2 (hnil h hh hc)
  reset hne hall := histogramSamplesWith_reset hne hall []

/-! ### All records -/

/-- Decoding the record of a list gives what was in the slice, followed by the list, whatever the
references, times and floats are. There are two exceptions. Samples need a slice that was empty or
has room for as many samples as the record may have at most, and histograms without custom buckets
must not have custom values. -/
theorem decode_encode_iff [Uvarint] (series preSeries : List RefSeries)
    (hseries : ∀ s ∈ series, LabelsFit s.labels)
    (samples : List RefSample) (preSamples : Slice RefSample)
    (metadata preMetadata : List RefMetadata) (hmetadata : ∀ m ∈ metadata, MetadataFits m)
    (exemplars preExemplars : List RefExemplar) (hexemplars : ∀ ex ∈ exemplars, LabelsFit ex.labels)
    (markers preMarkers : List RefMmapMarker)
    (stones preStones : List Stone) (hstones : ∀ s ∈ stones, s.intervals.length = 1)
    (histograms preHistograms : List RefHistogramSample)
    (hhistograms : ∀ h ∈ histograms, HistogramFits h.h) :
    Decoder.series (Encoder.series series []) preSeries = some (.ok (preSeries ++ series)) ∧
    (Decoder.samples (Encoder.samples samples []) preSamples =
      some (.ok (preSamples.elems ++ samples)) ↔
      preSamples.elems = [] ∨ ((Encoder.samples samples []).length - 17) / 10 ≤ preSamples.cap) ∧
    Decoder.metadata (Encoder.metadata metadata []) preMetadata =
      some (.ok (preMetadata ++ metadata)) ∧
    Decoder.exemplars (Encoder.exemplars exemplars []) preExemplars =
      some (.ok (preExemplars ++ exemplars)) ∧
    Decoder.mmapMarkers (mmapMarkers markers []) preMarkers = some (.ok (preMarkers ++ markers)) ∧
    Decoder.tombstones (tombstones stones []) preStones = some (.ok (preStones ++ stones)) ∧
    HistogramsUndone histogramSamples customBucketsHistogramSamples
      Decoder.histogramSamples histograms preHistograms ∧
    HistogramsUndone floatHistogramSamples customBucketsFloatHistogramSamples
      Decoder.floatHistogramSamples histograms preHistograms := by
  refine ⟨decode_series hseries _, ?_, decode_metadata hmetadata _, decode_exemplars hexemplars _,
    decode_mmapMarkers _ _, ?_, ?_, ?_⟩
  · rw [decode_samples, Option.some_inj, Except.ok.injEq, append_cancel_right_eq, kept, ← not_lt]
    split_ifs with hcap
    · simp [hcap, eq_comm]
    · simp [hcap]
  · rw [decode_tombstones, flatMap_split_of_single hstones]
  · exact histogramsUndone (fun _ => gets_histogram) (by decide) (by decide) hhistograms _
  · exact histogramsUndone (fun _ => gets_floatHistogram) (by decide) (by decide) hhistograms _

/-- A slice that is full with one sample, and a record with two samples: the first is lost. -/
theorem decode_samples_drops :
    Decoder.samples (samples [⟨1, 1, 0⟩, ⟨1, 2, 0⟩] []) ⟨[⟨1, 0, 0⟩], 1, by decide⟩ =
      some (.ok [⟨1, 1, 0⟩, ⟨1, 2, 0⟩]) := by
  decide +kernel

/-- A label set, two samples with room for them, and a list of two histograms of which one has
custom buckets, each appended to what was there. -/
theorem decode_encode_iff_two :
    let h : Histogram := ⟨0, 3, 0, 0, 2, 0, [⟨0, 1⟩], [], [2], [], []⟩
    let c : Histogram := ⟨0, -53, 0, 0, 1, 0, [⟨0, 1⟩], [], [1], [], [5]⟩
    Decoder.series (series [⟨7, [⟨[0x61], [0x62]⟩]⟩] []) [⟨6, []⟩] =
      some (.ok [⟨6, []⟩, ⟨7, [⟨[0x61], [0x62]⟩]⟩]) ∧
    Decoder.samples (samples [⟨1, 1, 0⟩, ⟨1, 2, 0⟩] []) ⟨[⟨1, 0, 0⟩], 2, by decide⟩ =
      some (.ok [⟨1, 0, 0⟩, ⟨1, 1, 0⟩, ⟨1, 2, 0⟩]) ∧
    Decoder.histogramSamples (histogramSamples [⟨1, 1, c⟩, ⟨1, 2, h⟩] []).1 [⟨1, 0, h⟩] =
      some (.ok [⟨1, 0, h⟩, ⟨1, 2, h⟩]) := by
  intro h c
  have hfits : ∀ x ∈ [(⟨1, 1, c⟩ : RefHistogramSample), ⟨1, 2, h⟩], HistogramFits x.h := by
    intro x hx
    simp only [mem_cons, not_mem_nil, or_false] at hx
    obtain rfl | rfl := hx <;> constructor <;> simp [h, c]
  obtain ⟨hseries, hsamples, -, -, -, -, hhistograms, -⟩ := decode_encode_iff
    [⟨7, [⟨[0x61], [0x62]⟩]⟩] [⟨6, []⟩] (by simp [LabelsFit]) [⟨1, 1, 0⟩, ⟨1, 2, 0⟩]
    ⟨[⟨1, 0, 0⟩], 2, by decide⟩ [] [] (by simp) [] [] (by simp) [] [] [] []
      (by simp) _ [⟨1, 0, h⟩] hfits
  refine ⟨hseries, hsamples.2 (Or.inr (by decide +kernel)),
    (hhistograms.exponential (Or.inr ?_)).2 ?_⟩
  · exact ⟨⟨1, 2, h⟩, by simp, by decide⟩
  · decide

end Prometheus.Record
