import Prometheus.Record.RoundTrip

/-!
# Records that are decoded and encoded again

The contents of a record are its entries, together with its type. What a record that can be decoded
contains fits into a record again: its lengths are read as `int`s, its stones have one interval
each, and histograms without custom buckets have no custom values (`Contents.Fits`). Encoding the
contents again gives a record with the same contents, with one exception: the encoders for
histograms without custom buckets leave out the others, and if there are only others, they throw
away all that is in the buffer (`Contents.decode_encode`).
-/

namespace Prometheus.Record

open Encoding List Ensures Encoder

/-! ### Contents -/

/-- A record as it is decoded. -/
inductive Contents
  | series (xs : List RefSeries)
  | samples (xs : List RefSample)
  | tombstones (xs : List Stone)
  | exemplars (xs : List RefExemplar)
  | mmapMarkers (xs : List RefMmapMarker)
  | metadata (xs : List RefMetadata)
  | histogramSamples (xs : List RefHistogramSample)
  | floatHistogramSamples (xs : List RefHistogramSample)
  | customBucketsHistogramSamples (xs : List RefHistogramSample)
  | customBucketsFloatHistogramSamples (xs : List RefHistogramSample)
  /-- a record of type `Unknown` -/
  | unknown (rec : Bytes)
deriving DecidableEq

/-- The types that `Decoder.Type` knows. -/
def RecordType.all : List RecordType :=
  [.series, .samples, .tombstones, .exemplars, .mmapMarkers, .metadata, .histogramSamples,
    .floatHistogramSamples, .customBucketsHistogramSamples, .customBucketsFloatHistogramSamples]

namespace Decoder

/-- `Type`. Without a result, the type is `Unknown`. -/
def type : Bytes → Option RecordType
  | [] => none
  | t :: _ => RecordType.all.find? (·.byte = t)

lemma type_byte (t : RecordType) (bs : Bytes) : type (t.byte :: bs) = some t := by
  cases t <;> rfl

/-- The contents of a record, decoded into new slices. -/
def contents [Uvarint] (rec : Bytes) : Option (Except DecodeError Contents) :=
  match type rec with
  | some .series => (series rec []).map (Except.map .series)
  | some .samples => (samples rec .nil).map (Except.map .samples)
  | some .tombstones => (tombstones rec []).map (Except.map .tombstones)
  | some .exemplars => (exemplars rec []).map (Except.map .exemplars)
  | some .mmapMarkers => (mmapMarkers rec []).map (Except.map .mmapMarkers)
  | some .metadata => (metadata rec []).map (Except.map .metadata)
  | some .histogramSamples => (histogramSamples rec []).map (Except.map .histogramSamples)
  | some .floatHistogramSamples =>
    (floatHistogramSamples rec []).map (Except.map .floatHistogramSamples)
  | some .customBucketsHistogramSamples =>
    (histogramSamples rec []).map (Except.map .customBucketsHistogramSamples)
  | some .customBucketsFloatHistogramSamples =>
    (floatHistogramSamples rec []).map (Except.map .customBucketsFloatHistogramSamples)
  | none => some (.ok (.unknown rec))

end Decoder

variable {α : Type} {rec : Bytes}

/-- The result of a decoder, as the contents of a record. -/
lemma map_eq_ok_iff {mk : List α → Contents} {r : Option (Except DecodeError (List α))}
    {c : Contents} :
    r.map (Except.map mk) = some (.ok c) ↔ ∃ xs, r = some (.ok xs) ∧ c = mk xs := by
  constructor
  · intro h
    obtain ⟨e, rfl, he⟩ := Option.map_eq_some_iff.1 h
    cases e with
    | error e => cases he
    | ok xs => exact ⟨xs, rfl, (Except.ok.inj he).symm⟩
  · rintro ⟨xs, rfl, rfl⟩
    rfl

/-! ### What can be decoded fits -/

lemma ensures_labels [Uvarint] : Ensures decodeLabels LabelsFit := by
  refine ensures_uvarintLen.bind fun n hn => ?_
  have hlabel : Ensures (do
      let name ← Decbuf.uvarintBytes
      let value ← Decbuf.uvarintBytes
      return (⟨name, value⟩ : Label)) fun l => l.name.length < 2 ^ 63 ∧ l.value.length < 2 ^ 63 :=
    ensures_uvarintBytes.bind fun name hname =>
      ensures_uvarintBytes.bind fun value hvalue => pure ⟨hname, hvalue⟩
  exact fun d lbls d' h =>
    have ⟨hlen, hall⟩ := hlabel.times n d lbls d' h
    ⟨hlen ▸ hn, hall⟩

lemma ensures_counted [Uvarint] (p : Get α) :
    Ensures (do times (← Decbuf.uvarintLen) p) fun xs => xs.length < 2 ^ 63 := by
  refine ensures_uvarintLen.bind fun n hn d xs d' h => ?_
  rw [((trivial p).times n d xs d' h).1]
  exact hn

/-- What a decoded histogram looks like: it fits, and nothing of it is lost when it is stored. -/
def Histogram.Decoded (h : Histogram) : Prop := HistogramFits h ∧ h.stored = h

lemma ensures_histogramWith [Uvarint] (getCount getBucket : Get (BitVec 64)) :
    Ensures (decodeHistogramWith getCount getBucket) Histogram.Decoded := by
  have htriv {α : Type} (p : Get α) := trivial p
  refine (htriv _).bind fun hint _ => (htriv _).bind fun schema _ => (htriv _).bind fun zt _ =>
    (htriv _).bind fun zc _ => (htriv _).bind fun c _ => (htriv _).bind fun sum _ =>
    (ensures_counted _).bind fun ps hps => (ensures_counted _).bind fun ns hns =>
    (ensures_counted _).bind fun pb hpb => (ensures_counted _).bind fun nb hnb => ?_
  split_ifs with hs
  · refine (ensures_counted _).bind fun cv hcv => pure ⟨⟨hps, hns, hpb, hnb, hcv⟩, ?_⟩
    exact if_pos hs
  · refine pure ⟨⟨hps, hns, hpb, hnb, by norm_num⟩, ?_⟩
    exact if_neg hs

lemma ensures_fields [Uvarint] (n : ℕ) {unit help : Bytes} (hunit : unit.length < 2 ^ 63)
    (hhelp : help.length < 2 ^ 63) :
    Ensures (decodeFields n unit help) fun f => f.1.length < 2 ^ 63 ∧ f.2.length < 2 ^ 63 := by
  induction n generalizing unit help with
  | zero => exact pure ⟨hunit, hhelp⟩
  | succ n ih =>
    refine (trivial _).bind fun fieldName _ => ensures_uvarintBytes.bind fun fieldValue hv => ?_
    split_ifs
    · exact ih hv hhelp
    · exact ih hunit hv
    · exact ih hunit hhelp

lemma ensures_withBase {Q : List α → Prop} {out : List α} (hout : Q out)
    {loop : BitVec 64 → BitVec 64 → Get (List α)} (hloop : ∀ r t, Ensures (loop r t) Q) :
    Ensures (withBase out loop) Q := by
  intro d xs d' h
  unfold withBase at h
  split_ifs at h
  · cases h
    exact hout
  · exact (trivial _).bind (fun r _ => (trivial _).bind fun t _ => hloop r t) d xs d' h

lemma of_decodeRecord {types : List RecordType} {fail : ℕ → DecodeError}
    {body : Get (List α)} {Q : List α → Prop} (hbody : Ensures body Q) {xs : List α}
    (h : decodeRecord types fail body rec = some (.ok xs)) : Q xs := by
  obtain ⟨⟨t, dec⟩, -, h⟩ := Option.bind_eq_some_iff.1 h
  dsimp only at h
  split_ifs at h
  · obtain ⟨⟨out, dec'⟩, hout, h⟩ := Option.bind_eq_some_iff.1 h
    split_ifs at h
    · cases h
    · cases h
    · cases h
      exact hbody _ _ _ hout
  · cases h

/-- What is known about contents that have been decoded. -/
def Contents.Fits : Contents → Prop
  | .series xs => ∀ s ∈ xs, LabelsFit s.labels
  | .samples _ => True
  | .tombstones xs => ∀ s ∈ xs, s.intervals.length = 1
  | .exemplars xs => ∀ ex ∈ xs, LabelsFit ex.labels
  | .mmapMarkers _ => True
  | .metadata xs => ∀ m ∈ xs, MetadataFits m
  | .histogramSamples xs => ∀ h ∈ xs, h.h.Decoded
  | .floatHistogramSamples xs => ∀ h ∈ xs, h.h.Decoded
  | .customBucketsHistogramSamples xs => ∀ h ∈ xs, h.h.Decoded
  | .customBucketsFloatHistogramSamples xs => ∀ h ∈ xs, h.h.Decoded
  | .unknown rec => Decoder.type rec = none

lemma decoded_of_histogramSamplesWith [Uvarint] {types : List RecordType} {decode : Get Histogram}
    (hdecode : Ensures decode Histogram.Decoded) {xs : List RefHistogramSample}
    (h : Decoder.histogramSamplesWith types decode rec [] = some (.ok xs)) :
    ∀ h ∈ xs, h.h.Decoded := by
  refine of_decodeRecord (ensures_withBase (by simp) fun r t => entries ?_ (by simp)) h
  exact (trivial _).bind fun _ _ => hdecode.bind fun h hh => pure hh

lemma Contents.fits_of_contents [Uvarint] {c : Contents}
    (h : Decoder.contents rec = some (.ok c)) : c.Fits := by
  unfold Decoder.contents at h
  split at h
  case h_11 htype =>
    cases h
    exact htype
  all_goals obtain ⟨xs, hxs, rfl⟩ := map_eq_ok_iff.1 h
  · refine of_decodeRecord (entries ?_ (by simp)) hxs
    exact (trivial _).bind fun _ _ => ensures_labels.bind fun _ hl => pure hl
  · exact True.intro
  · refine of_decodeRecord (entries ?_ (by simp)) hxs
    exact (trivial _).bind fun _ _ => (trivial _).bind fun _ _ =>
      (trivial _).bind fun _ _ => pure rfl
  · refine of_decodeRecord (ensures_withBase (by simp) fun r t => entries ?_ (by simp)) hxs
    exact (trivial _).bind fun _ _ => (trivial _).bind fun _ _ =>
      ensures_labels.bind fun _ hl => pure hl
  · exact True.intro
  · refine of_decodeRecord (entries ?_ (by simp)) hxs
    exact (trivial _).bind fun _ _ => (trivial _).bind fun _ _ =>
      (trivial _).bind fun n _ =>
        (ensures_fields n (by norm_num) (by norm_num)).bind fun _ hf => pure hf
  · exact decoded_of_histogramSamplesWith (ensures_histogramWith _ _) hxs
  · exact decoded_of_histogramSamplesWith (ensures_histogramWith _ _) hxs
  · exact decoded_of_histogramSamplesWith (ensures_histogramWith _ _) hxs
  · exact decoded_of_histogramSamplesWith (ensures_histogramWith _ _) hxs

/-! ### Encoding the contents again -/

namespace Contents

/-- The encoder for the type of the record. What the encoders for histograms set aside is lost. -/
def encode : Contents → Bytes → Bytes
  | .series xs, b => Encoder.series xs b
  | .samples xs, b => Encoder.samples xs b
  | .tombstones xs, b => Encoder.tombstones xs b
  | .exemplars xs, b => Encoder.exemplars xs b
  | .mmapMarkers xs, b => Encoder.mmapMarkers xs b
  | .metadata xs, b => Encoder.metadata xs b
  | .histogramSamples xs, b => (Encoder.histogramSamples xs b).1
  | .floatHistogramSamples xs, b => (Encoder.floatHistogramSamples xs b).1
  | .customBucketsHistogramSamples xs, b => Encoder.customBucketsHistogramSamples xs b
  | .customBucketsFloatHistogramSamples xs, b => Encoder.customBucketsFloatHistogramSamples xs b
  | .unknown rec, b => b ++ rec

def type : Contents → Option RecordType
  | .series _ => some .series
  | .samples _ => some .samples
  | .tombstones _ => some .tombstones
  | .exemplars _ => some .exemplars
  | .mmapMarkers _ => some .mmapMarkers
  | .metadata _ => some .metadata
  | .histogramSamples _ => some .histogramSamples
  | .floatHistogramSamples _ => some .floatHistogramSamples
  | .customBucketsHistogramSamples _ => some .customBucketsHistogramSamples
  | .customBucketsFloatHistogramSamples _ => some .customBucketsFloatHistogramSamples
  | .unknown _ => none

/-- What is left when the encoders for histograms set some aside. -/
def exponential : Contents → Contents
  | .histogramSamples xs => .histogramSamples (xs.filter fun h => !h.usesCustomBuckets)
  | .floatHistogramSamples xs => .floatHistogramSamples (xs.filter fun h => !h.usesCustomBuckets)
  | c => c

/-- The encoders for histograms set everything aside. -/
def Resets : Contents → Prop
  | .histogramSamples xs | .floatHistogramSamples xs =>
    xs ≠ [] ∧ ∀ h ∈ xs, h.usesCustomBuckets = true
  | _ => False

variable {c : Contents} {xs : List RefHistogramSample}

lemma encode_of_resets (h : c.Resets) (b : Bytes) : c.encode b = [] := by
  cases c with
  | histogramSamples xs => exact histogramSamplesWith_reset h.1 h.2 b
  | floatHistogramSamples xs => exact histogramSamplesWith_reset h.1 h.2 b
  | _ => exact h.elim

lemma not_resets_iff :
    ¬ (xs ≠ [] ∧ ∀ h ∈ xs, h.usesCustomBuckets = true) ↔
      xs = [] ∨ ∃ h ∈ xs, ¬ h.usesCustomBuckets = true := by
  grind

lemma exists_histogramSamplesWith {type : RecordType} {enc : Histogram → Bytes}
    (h : xs = [] ∨ ∃ h ∈ xs, ¬ h.usesCustomBuckets = true) :
    ∃ bs, ∀ b, (histogramSamplesWith type enc xs b).1 = b ++ type.byte :: bs := by
  cases xs with
  | nil => exact ⟨[], fun b => rfl⟩
  | cons first rest =>
    obtain ⟨h, hh, hc⟩ := h.resolve_left (cons_ne_nil _ _)
    have hlen : ¬ (first :: rest).length =
        ((first :: rest).filter RefHistogramSample.usesCustomBuckets).length :=
      fun heq => hc (length_filter_eq_length_iff.1 heq.symm h hh)
    simp only [histogramSamplesWith, histogramLoop_eq, if_neg hlen]
    exact ⟨_, fun b => append_assoc b _ _⟩

lemma exists_customBucketsSamplesWith (type : RecordType) (enc : Histogram → Bytes)
    (xs : List RefHistogramSample) :
    ∃ bs, ∀ b, customBucketsSamplesWith type enc xs b = b ++ type.byte :: bs := by
  cases xs with
  | nil => exact ⟨[], fun b => rfl⟩
  | cons first rest => exact ⟨_, fun b => append_assoc b _ _⟩

/-- An encoder that does not throw away the buffer appends the type byte and the entries to it. -/
lemma exists_encode (h : ¬ c.Resets) {t : RecordType} (ht : c.type = some t) :
    ∃ bs, ∀ b, c.encode b = b ++ t.byte :: bs := by
  cases c with
  | unknown rec => cases ht
  | histogramSamples xs =>
    cases ht
    exact exists_histogramSamplesWith (not_resets_iff.1 h)
  | floatHistogramSamples xs =>
    cases ht
    exact exists_histogramSamplesWith (not_resets_iff.1 h)
  | customBucketsHistogramSamples xs =>
    cases ht
    exact exists_customBucketsSamplesWith _ _ _
  | customBucketsFloatHistogramSamples xs =>
    cases ht
    exact exists_customBucketsSamplesWith _ _ _
  | samples xs =>
    cases ht
    cases xs with
    | nil => exact ⟨[], fun b => rfl⟩
    | cons first rest => exact ⟨_, fun b => append_assoc b _ _⟩
  | exemplars xs =>
    cases ht
    cases xs with
    | nil => exact ⟨[], fun b => rfl⟩
    | cons first rest => exact ⟨_, fun b => append_assoc b _ _⟩
  | _ =>
    cases ht
    exact ⟨_, fun b => append_assoc b _ _⟩

lemma map_stored (h : ∀ h ∈ xs, h.h.Decoded) : xs.map RefHistogramSample.stored = xs :=
  map_eq_self_iff.2 fun x hx => by rw [RefHistogramSample.stored, (h x hx).2]

section Histograms

variable {enc : Histogram → Bytes} {decode : Get Histogram}
  (hget : ∀ h, HistogramFits h → Gets decode (enc h) h.stored)
  {types : List RecordType} {type : RecordType} (htype : type ∈ types)
  {xs : List RefHistogramSample} (hfits : ∀ h ∈ xs, h.h.Decoded)
include hget htype hfits

lemma decode_exponential_decoded [Uvarint]
    (hsome : xs = [] ∨ ∃ h ∈ xs, ¬ h.usesCustomBuckets = true) :
    Decoder.histogramSamplesWith types decode (histogramSamplesWith type enc xs []).1 [] =
      some (.ok (xs.filter fun h => !h.usesCustomBuckets)) := by
  rw [decode_exponential hget htype (fun h hh => (hfits h hh).1) [] hsome,
    map_stored fun h hh => hfits h (mem_filter.1 hh).1]
  rfl

/-- Histograms without custom buckets can be in a record for those that have them. -/
lemma decode_customBuckets_decoded [Uvarint] :
    Decoder.histogramSamplesWith types decode (customBucketsSamplesWith type enc xs []) [] =
      some (.ok xs) := by
  cases xs with
  | nil => exact decodeRecord_ok htype _ (withBase_nil [] _)
  | cons first rest =>
    have h := decode_histograms hget htype (fun h hh => (hfits h hh).1) [] first.ref first.t
    rwa [map_stored hfits] at h

end Histograms

lemma type_encode (h : ¬ c.Resets) {t : RecordType} (ht : c.type = some t) :
    Decoder.type (c.encode []) = some t := by
  obtain ⟨bs, hbs⟩ := exists_encode h ht
  rw [hbs, nil_append, Decoder.type_byte]

/-- Contents that were decoded are encoded and decoded again. -/
theorem decode_encode [Uvarint] (hfits : c.Fits) (h : ¬ c.Resets) (hknown : c.type ≠ none) :
    Decoder.contents (c.encode []) = some (.ok c.exponential) := by
  obtain ⟨t, ht⟩ := Option.ne_none_iff_exists'.1 hknown
  have htype := type_encode h ht
  rw [Decoder.contents, htype]
  cases c with
  | unknown rec => cases ht
  | series xs =>
    cases ht
    exact map_eq_ok_iff.2 ⟨xs, decode_series hfits [], rfl⟩
  | samples xs =>
    cases ht
    refine map_eq_ok_iff.2 ⟨xs, ?_, rfl⟩
    rw [encode, decode_samples, kept, ite_self, nil_append]
  | tombstones xs =>
    cases ht
    refine map_eq_ok_iff.2 ⟨xs, ?_, rfl⟩
    rw [encode, decode_tombstones, flatMap_split_of_single hfits, nil_append]
  | exemplars xs =>
    cases ht
    exact map_eq_ok_iff.2 ⟨xs, decode_exemplars hfits [], rfl⟩
  | mmapMarkers xs =>
    cases ht
    exact map_eq_ok_iff.2 ⟨xs, decode_mmapMarkers xs [], rfl⟩
  | metadata xs =>
    cases ht
    exact map_eq_ok_iff.2 ⟨xs, decode_metadata hfits [], rfl⟩
  | histogramSamples xs =>
    cases ht
    exact map_eq_ok_iff.2 ⟨_, decode_exponential_decoded (fun _ => gets_histogram) (by decide) hfits
      (not_resets_iff.1 h), rfl⟩
  | floatHistogramSamples xs =>
    cases ht
    exact map_eq_ok_iff.2 ⟨_, decode_exponential_decoded (fun _ => gets_floatHistogram) (by decide)
      hfits (not_resets_iff.1 h), rfl⟩
  | customBucketsHistogramSamples xs =>
    cases ht
    exact map_eq_ok_iff.2 ⟨xs, decode_customBuckets_decoded (fun _ => gets_histogram) (by decide)
      hfits, rfl⟩
  | customBucketsFloatHistogramSamples xs =>
    cases ht
    exact map_eq_ok_iff.2 ⟨xs, decode_customBuckets_decoded (fun _ => gets_floatHistogram)
      (by decide) hfits, rfl⟩

end Contents

end Prometheus.Record
