import Prometheus.Lib.GoSlice
import Prometheus.Record.Contents
import Prometheus.Wlog.Writer

/-!
# Checkpoints of the write-ahead log

`Checkpoint` of `tsdb/wlog/checkpoint.go`. It reads the last checkpoint and some segments, drops
what is not needed any more and writes the rest to a new checkpoint. The records are encoded into
one buffer, and the slices of this buffer are logged in batches.

The buffer only grows between two batches, so that the records in it stay as they are, even if it is
moved (`Loop.Inv`). Records of histograms are the exception. What their encoder sets aside is thrown
away, and if that is everything, the buffer is cut to length zero. Then there is no record that
starts where the buffer ended before, and unless the buffer was empty, taking it panics.
-/

namespace Prometheus.Wlog

open Record hiding Slice
open GoSlice List

/-! ### The model -/

/-- The errors of `Checkpoint`. -/
inductive CheckpointError
  /-- "unexpected gap to last checkpoint. expected:%v, requested:%v" -/
  | gap (expected requested : ℤ)
  /-- "create segment reader: list segment in dir:%v: segments are not sequential" -/
  | notSequential
  /-- "open checkpoint: %w" -/
  | openCheckpoint
  /-- "decode series: %w", or what else the record holds -/
  | decode (what : String) (err : DecodeError)
  /-- "flush records: %w" -/
  | flushRecords
  /-- "read segments: %w" -/
  | readSegments (err : ReaderError)
  /-- "flush metadata records: %w" -/
  | flushMetadataRecords
  /-- "close checkpoint: %w" -/
  | closeCheckpoint

/-- A part of `Checkpoint`. Without a result, it panics. -/
abbrev CheckpointM := ExceptT CheckpointError Option

structure CheckpointStats where
  droppedSeries : ℕ
  droppedSamples : ℕ
  droppedTombstones : ℕ
  droppedExemplars : ℕ
  droppedMetadata : ℕ
  totalSeries : ℕ
  totalSamples : ℕ
  totalTombstones : ℕ
  totalExemplars : ℕ
  totalMetadata : ℕ

/-- What a program has no say in: how much room a new array has, in which pieces an encoder appends
its bytes, and in which order a map is traversed. -/
structure Runtime where
  spare : ℕ → ℕ → ℕ
  pieces : Bytes → List Bytes
  flatten_pieces : ∀ bs, (pieces bs).flatten = bs
  traverse : List RefMetadata → List RefMetadata
  traverse_perm : ∀ ms, (traverse ms).Perm ms

/-- The segments of a directory with their numbers, in order. -/
abbrev Segments := List (ℤ × Bytes)

/-- A directory with segments and checkpoints, each with its index, in order. -/
structure WalDir where
  checkpoints : List (ℤ × Segments)
  segments : Segments

/-- `listSegments`, of segments that are sorted by their numbers. -/
def listSegments (segs : Segments) : Except CheckpointError Segments :=
  if segs.IsChain fun s s' => s.1 + 1 = s'.1 then .ok segs else .error .notSequential

/-- The loop of `NewSegmentsRangeReader` over the segments of a range. -/
def segmentsInRange (first last : ℤ) : Segments → List Bytes
  | [] => []
  | (i, seg) :: segs =>
    if first ≥ 0 ∧ i < first then segmentsInRange first last segs
    else if last ≥ 0 ∧ i > last then []
    else seg :: segmentsInRange first last segs

/-- `NewSegmentsRangeReader`, for ranges with their first and last numbers. -/
def newSegmentsRangeReader : List (Segments × ℤ × ℤ) → Except CheckpointError (List Bytes)
  | [] => .ok []
  | (segs, first, last) :: ranges => do
    let refs ← listSegments segs
    return segmentsInRange first last refs ++ (← newSegmentsRangeReader ranges)

/-- The segments that `Checkpoint` reads. Those below the last checkpoint are ignored. -/
def WalDir.range (dir : WalDir) (fromSegment toSegment : ℤ) : Except CheckpointError (List Bytes) :=
  match dir.checkpoints.getLast? with
  | none => newSegmentsRangeReader [(dir.segments, fromSegment, toSegment)]
  | some (idx, segs) =>
    let last := idx + 1
    if fromSegment > last then .error (.gap last fromSegment)
    else
      -- `math.MaxInt32`
      newSegmentsRangeReader [(segs, 0, 0x7fffffff), (dir.segments, last, toSegment)]

/-- The variables of the loop over the records. -/
structure Loop where
  mem : Mem (BitVec 8)
  buf : Slice
  recs : List Slice
  latestMetadataMap : List RefMetadata
  stats : CheckpointStats
  cp : WL

/-- `latestMetadataMap[m.Ref] = m`. -/
def setMetadata (m : RefMetadata) (ms : List RefMetadata) : List RefMetadata :=
  if ms.any (·.ref = m.ref) then ms.map fun x => if x.ref = m.ref then m else x else ms ++ [m]

namespace Loop

variable (P : Params) (R : Runtime)

/-- The buffer is given to an encoder. If the result does not start with what was in the buffer, the
encoder has reset it. -/
def encode (enc : Bytes → Bytes) (s : Loop) : Loop :=
  let b := s.mem.read s.buf
  let out := enc b
  let (buf, bs) := if b <+: out then (s.buf, out.drop b.length) else (s.buf.reset, out)
  let (mem, buf) := s.mem.appendAll R.spare 0 buf (R.pieces bs)
  { s with mem := mem, buf := buf }

/-- The result of a decoder. -/
def decoded {α : Type} (what : String) (r : Option (Except DecodeError α)) : CheckpointM α :=
  ExceptT.mk (r.map (Except.mapError (.decode what)))

/-- A case of the switch: the record is decoded, and the entries that are not dropped are encoded.
`count` adds how many there were and how many are dropped. -/
def compact {α : Type} (what : String) (r : Option (Except DecodeError (List α))) (keep : α → Bool)
    (enc : List α → Bytes → Bytes) (count : ℕ → ℕ → CheckpointStats → CheckpointStats) (s : Loop) :
    CheckpointM Loop := do
  let xs ← decoded what r
  let repl := xs.filter keep
  let s := if repl.length > 0 then s.encode R (enc repl) else s
  return { s with stats := count xs.length (xs.length - repl.length) s.stats }

variable (total dropped : ℕ)

variable (st : CheckpointStats)

def countSeries : CheckpointStats :=
  { st with totalSeries := st.totalSeries + total, droppedSeries := st.droppedSeries + dropped }

def countSamples : CheckpointStats :=
  { st with totalSamples := st.totalSamples + total, droppedSamples := st.droppedSamples + dropped }

def countTombstones : CheckpointStats :=
  { st with
    totalTombstones := st.totalTombstones + total
    droppedTombstones := st.droppedTombstones + dropped }

def countExemplars : CheckpointStats :=
  { st with
    totalExemplars := st.totalExemplars + total
    droppedExemplars := st.droppedExemplars + dropped }

def countMetadata : CheckpointStats :=
  { st with
    totalMetadata := st.totalMetadata + total
    droppedMetadata := st.droppedMetadata + dropped }

/-- The loop over the entries of a metadata record: how many references are new, and the map. -/
def keepMetadata (keep : BitVec 64 → Bool) (repl : ℕ) (ms : List RefMetadata) :
    List RefMetadata → ℕ × List RefMetadata
  | [] => (repl, ms)
  | m :: metadata =>
    if keep m.ref then
      keepMetadata keep (if ms.any (·.ref = m.ref) then repl else repl + 1)
        (setMetadata m ms) metadata
    else keepMetadata keep repl ms metadata

/-- `cp.Log(recs...)`. -/
def log (s : Loop) : CheckpointM Loop :=
  match s.cp.logBatch P (s.recs.map s.mem.read) with
  | none => throw .flushRecords
  | some cp => return { s with cp := cp }

/-- The end of a turn: the record starts at `start`, and the records are flushed in 1 MB
increments. -/
def endTurn (start : ℕ) (s : Loop) : CheckpointM Loop :=
  match s.buf.tail start with
  | none => ExceptT.mk none
  | some rec =>
    -- all contents discarded
    if rec.len = 0 then return s
    else
      let s := { s with recs := s.recs ++ [rec] }
      if s.buf.len > 1 * 1024 * 1024 then do
        let s ← s.log P
        return { s with buf := s.buf.reset, recs := [] }
      else return s

/-- A turn of the loop. The slices that the decoders append to are empty. -/
def turn [Encoding.Uvarint] (keep : BitVec 64 → ℤ → Bool) (toSegment : ℤ) (mint : BitVec 64)
    (s : Loop) (rec : Bytes) :
    CheckpointM Loop :=
  let start := s.buf.len
  match Decoder.type rec with
  | some .series => do
    let s ← s.compact R "series" (Decoder.series rec []) (fun x => keep x.ref toSegment)
      Encoder.series countSeries
    s.endTurn P start
  | some .samples => do
    let s ← s.compact R "samples" (Decoder.samples rec .nil) (fun x => mint.sle x.t)
      Encoder.samples countSamples
    s.endTurn P start
  | some .histogramSamples => do
    let s ← s.compact R "histogram samples" (Decoder.histogramSamples rec [])
      (fun x => mint.sle x.t)
      (fun repl b => (Encoder.histogramSamples repl b).1) countSamples
    s.endTurn P start
  | some .customBucketsHistogramSamples => do
    let s ← s.compact R "histogram samples" (Decoder.histogramSamples rec [])
      (fun x => mint.sle x.t)
      Encoder.customBucketsHistogramSamples countSamples
    s.endTurn P start
  | some .floatHistogramSamples => do
    let s ← s.compact R "float histogram samples" (Decoder.floatHistogramSamples rec [])
      (fun x => mint.sle x.t) (fun repl b => (Encoder.floatHistogramSamples repl b).1) countSamples
    s.endTurn P start
  | some .customBucketsFloatHistogramSamples => do
    let s ← s.compact R "float histogram samples" (Decoder.floatHistogramSamples rec [])
      (fun x => mint.sle x.t) Encoder.customBucketsFloatHistogramSamples countSamples
    s.endTurn P start
  | some .tombstones => do
    let s ← s.compact R "deletes" (Decoder.tombstones rec [])
      (fun x => x.intervals.any fun iv => mint.sle iv.maxt) Encoder.tombstones countTombstones
    s.endTurn P start
  | some .exemplars => do
    let s ← s.compact R "exemplars" (Decoder.exemplars rec []) (fun x => mint.sle x.t)
      Encoder.exemplars countExemplars
    s.endTurn P start
  | some .metadata => do
    let metadata ← decoded "metadata" (Decoder.metadata rec [])
    let (repl, ms) := keepMetadata (keep · toSegment) 0 s.latestMetadataMap metadata
    let s := { s with
      latestMetadataMap := ms
      stats := countMetadata metadata.length (metadata.length - repl) s.stats }
    s.endTurn P start
  -- "Unknown record type, probably from a future Prometheus version."
  | some .mmapMarkers | none => return s

/-- The latest metadata are encoded into the buffer from its start on, and logged. -/
def logMetadata (s : Loop) : CheckpointM Loop :=
  if s.latestMetadataMap.length > 0 then
    let s := ({ s with buf := s.buf.reset } : Loop).encode R
      (Encoder.metadata (R.traverse s.latestMetadataMap))
    match s.cp.logBatch P [s.mem.read s.buf] with
    | none => throw .flushMetadataRecords
    | some cp => return { s with cp := cp }
  else return s

end Loop

def defaultSegmentSize : ℤ := 128 * 1024 * 1024

/-- `Checkpoint`, with the segments of the new checkpoint as result. -/
def checkpoint [Encoding.Uvarint] (P : Params) (R : Runtime) (compress : Compression) (dir : WalDir)
    (fromSegment toSegment : ℤ) (keep : BitVec 64 → ℤ → Bool) (mint : BitVec 64) :
    CheckpointM (CheckpointStats × List Bytes) := do
  let segs ← ExceptT.mk (some (dir.range fromSegment toSegment))
  match WL.newSize [] defaultSegmentSize compress with
  | none => throw .openCheckpoint
  | some cp =>
    let (recs, err) := readSegments P segs
    let s ← recs.foldlM (Loop.turn P R keep toSegment mint)
      ⟨[], .nil, [], [], ⟨0, 0, 0, 0, 0, 0, 0, 0, 0, 0⟩, cp⟩
    match err with
    | some e => throw (.readSegments e)
    | none =>
      let s ← s.log P
      let s ← s.logMetadata P R
      match s.cp.close with
      | none => throw .closeCheckpoint
      | some cp => return (s.stats, cp.files)

/-! ### What a checkpoint should keep -/

/-- The entries that are kept. -/
def relevant (keep : BitVec 64 → Bool) (mint : BitVec 64) : Contents → Contents
  | .series xs => .series (xs.filter fun x => keep x.ref)
  | .samples xs => .samples (xs.filter fun x => mint.sle x.t)
  | .tombstones xs => .tombstones (xs.filter fun x => x.intervals.any fun iv => mint.sle iv.maxt)
  | .exemplars xs => .exemplars (xs.filter fun x => mint.sle x.t)
  | .histogramSamples xs => .histogramSamples (xs.filter fun x => mint.sle x.t)
  | .floatHistogramSamples xs => .floatHistogramSamples (xs.filter fun x => mint.sle x.t)
  | .customBucketsHistogramSamples xs =>
    .customBucketsHistogramSamples (xs.filter fun x => mint.sle x.t)
  | .customBucketsFloatHistogramSamples xs =>
    .customBucketsFloatHistogramSamples (xs.filter fun x => mint.sle x.t)
  | c => c

/-- The number of entries, of records of the kinds that are kept. -/
def size : Contents → ℕ
  | .series xs => xs.length
  | .samples xs => xs.length
  | .tombstones xs => xs.length
  | .exemplars xs => xs.length
  | .histogramSamples xs => xs.length
  | .floatHistogramSamples xs => xs.length
  | .customBucketsHistogramSamples xs => xs.length
  | .customBucketsFloatHistogramSamples xs => xs.length
  | _ => 0

/-- A record with entries. -/
def nonempty (c : Contents) : Option Contents := if size c = 0 then none else some c

def metadataOf : Contents → List RefMetadata
  | .metadata xs => xs
  | _ => []

/-- `ms` are the latest of the metadata in `metadata` for all references that are kept. -/
structure Latest (keep : BitVec 64 → Bool) (metadata ms : List RefMetadata) : Prop where
  nodup : (ms.map RefMetadata.ref).Nodup
  mem_iff : ∀ m, m ∈ ms ↔ keep m.ref = true ∧ metadata.reverse.find? (·.ref = m.ref) = some m

/-- The records can be decoded and have these contents. -/
def Decodes [Encoding.Uvarint] : List Bytes → List Contents → Prop :=
  List.Forall₂ fun rec c => Decoder.contents rec = some (.ok c)

/-- The segments of a checkpoint hold the relevant entries of the input, and the latest metadata. -/
def Filtered [Encoding.Uvarint] (P : Params) (keep : BitVec 64 → Bool) (mint : BitVec 64)
    (input : List Contents)
    (segs : List Bytes) : Prop :=
  ∃ recs ms, readSegments P segs = (recs, none) ∧ Latest keep (input.flatMap metadataOf) ms ∧
    Decodes recs ((input.filterMap fun c => nonempty (relevant keep mint c)) ++
      if ms = [] then [] else [.metadata ms])

variable {c : Contents}

lemma fits_relevant (h : c.Fits) (keep : BitVec 64 → Bool) (mint : BitVec 64) :
    (relevant keep mint c).Fits := by
  have hmem {α : Type} {p : α → Bool} {xs : List α} {x : α} (hx : x ∈ xs.filter p) : x ∈ xs :=
    (mem_filter.1 hx).1
  cases c <;> first | exact h | exact fun x hx => h x (hmem hx)

lemma type_of_size (h : size c ≠ 0) : c.type ≠ none := by
  cases c <;> first | exact Option.some_ne_none _ | exact absurd rfl h

lemma metadataOf_of_size (c : Contents) (keep : BitVec 64 → Bool) (mint : BitVec 64)
    (h : size (relevant keep mint c) ≠ 0) : metadataOf c = [] := by
  cases c <;> first | rfl | exact absurd rfl h

/-- Nothing is left of a record if it was empty or if all is set aside. -/
lemma size_exponential_eq_zero_iff : size c.exponential = 0 ↔ size c = 0 ∨ c.Resets := by
  cases c <;> simp [size, Contents.exponential, Contents.Resets, filter_eq_nil_iff]
  all_goals grind

/-! ### The latest metadata -/

variable {ms : List RefMetadata} {m : RefMetadata}

lemma mem_setMetadata {x : RefMetadata} :
    x ∈ setMetadata m ms ↔ x = m ∨ (x ∈ ms ∧ x.ref ≠ m.ref) := by
  unfold setMetadata
  split_ifs with hany
  · obtain ⟨y, hy, href⟩ := any_eq_true.1 hany
    have href : y.ref = m.ref := of_decide_eq_true href
    rw [mem_map]
    constructor
    · rintro ⟨z, hz, rfl⟩
      split_ifs with hzm
      · exact Or.inl rfl
      · exact Or.inr ⟨hz, hzm⟩
    · rintro (rfl | ⟨hx, hne⟩)
      · exact ⟨y, hy, if_pos href⟩
      · exact ⟨x, hx, if_neg hne⟩
  · have hne : ∀ y ∈ ms, y.ref ≠ m.ref := by simpa using hany
    rw [mem_append, mem_singleton]
    constructor
    · rintro (hx | rfl)
      · exact Or.inr ⟨hx, hne x hx⟩
      · exact Or.inl rfl
    · rintro (rfl | ⟨hx, -⟩)
      · exact Or.inr rfl
      · exact Or.inl hx

lemma nodup_setMetadata
    (h : (ms.map RefMetadata.ref).Nodup) : ((setMetadata m ms).map RefMetadata.ref).Nodup := by
  unfold setMetadata
  split_ifs with hany
  · have href (x : RefMetadata) : (if x.ref = m.ref then m else x).ref = x.ref := by
      split_ifs with hx
      · exact hx.symm
      · rfl
    rw [map_map]
    simpa only [Function.comp_def, href] using h
  have hne : ∀ y ∈ ms, y.ref ≠ m.ref := by simpa using hany
  rw [map_append, map_singleton]
  refine nodup_append.2 ⟨h, nodup_cons.2 ⟨not_mem_nil, nodup_nil⟩, ?_⟩
  intro a ha b hb
  obtain ⟨y, hy, rfl⟩ := mem_map.1 ha
  rw [mem_singleton.1 hb]
  exact hne y hy

namespace Latest

variable {keep : BitVec 64 → Bool} {metadata ms : List RefMetadata}

lemma nil (keep : BitVec 64 → Bool) : Latest keep [] [] := ⟨nodup_nil, by simp⟩

lemma find?_append (m x : RefMetadata) :
    (metadata ++ [m]).reverse.find? (·.ref = x.ref) =
      if m.ref = x.ref then some m else metadata.reverse.find? (·.ref = x.ref) := by
  rw [reverse_append, reverse_singleton, singleton_append, find?_cons]
  split_ifs with h <;> simp [h]

variable (h : Latest keep metadata ms)
include h

lemma set (hkeep : keep m.ref = true) : Latest keep (metadata ++ [m]) (setMetadata m ms) where
  nodup := nodup_setMetadata h.nodup
  mem_iff x := by
    rw [mem_setMetadata, find?_append, h.mem_iff]
    by_cases hx : m.ref = x.ref
    · rw [if_pos hx, Option.some_inj]
      constructor
      · rintro (rfl | ⟨-, hne⟩)
        · exact ⟨hkeep, rfl⟩
        · exact absurd hx.symm hne
      · exact fun ⟨_, heq⟩ => Or.inl heq.symm
    rw [if_neg hx]
    constructor
    · rintro (rfl | ⟨hmem, -⟩)
      · exact absurd rfl hx
      · exact hmem
    · exact fun hmem => Or.inr ⟨hmem, fun heq => hx heq.symm⟩

lemma skip (hkeep : ¬ keep m.ref = true) : Latest keep (metadata ++ [m]) ms where
  nodup := h.nodup
  mem_iff x := by
    rw [find?_append, h.mem_iff]
    by_cases hx : m.ref = x.ref
    · have hfalse : ¬ keep x.ref = true := hx ▸ hkeep
      exact ⟨fun hmem => absurd hmem.1 hfalse, fun hmem => absurd hmem.1 hfalse⟩
    · rw [if_neg hx]

lemma keepMetadata (repl : ℕ) (xs : List RefMetadata) :
    Latest keep (metadata ++ xs) (Loop.keepMetadata keep repl ms xs).2 := by
  induction xs generalizing metadata ms repl with
  | nil => rwa [append_nil]
  | cons m xs ih =>
    rw [← singleton_append, ← append_assoc, singleton_append, Loop.keepMetadata]
    by_cases hkeep : keep m.ref = true
    · rw [if_pos hkeep]
      exact ih (h.set hkeep) _
    · rw [if_neg hkeep]
      exact ih (h.skip hkeep) _

end Latest

/-! ### A turn of the loop -/

variable {recs : List Bytes} {metadata : List RefMetadata} {bs : Bytes} {enc : Bytes → Bytes}
  {input : List Contents}

namespace Loop

variable {P : Params} {R : Runtime} {s : Loop}

lemma endTurn_same (s : Loop) : s.endTurn P s.buf.len = pure s := by
  simp [endTurn, Slice.tail]

lemma compact_ok {α : Type} (what : String) (xs : List α) (keep : α → Bool)
    (enc : List α → Bytes → Bytes) (count : ℕ → ℕ → CheckpointStats → CheckpointStats) (s : Loop) :
    s.compact R what (some (.ok xs)) keep enc count =
      pure { (if (xs.filter keep).length > 0 then s.encode R (enc (xs.filter keep)) else s) with
        stats := count xs.length (xs.length - (xs.filter keep).length) s.stats } := by
  unfold compact
  rw [show decoded what (some (.ok xs)) = pure xs from rfl, pure_bind]
  dsimp only
  split_ifs <;> rfl

/-- A case of the switch, to the end of the turn. -/
lemma compact_endTurn {α : Type} (what : String) (xs : List α) (keep : α → Bool)
    (enc : List α → Bytes → Bytes) (count : ℕ → ℕ → CheckpointStats → CheckpointStats) (s : Loop) :
    ∃ st, (do
        let s' ← s.compact R what (some (.ok xs)) keep enc count
        s'.endTurn P s.buf.len) =
      if (xs.filter keep).length = 0 then pure { s with stats := st }
      else endTurn P s.buf.len { s.encode R (enc (xs.filter keep)) with stats := st } := by
  refine ⟨count xs.length (xs.length - (xs.filter keep).length) s.stats, ?_⟩
  rw [compact_ok, pure_bind]
  by_cases hnil : (xs.filter keep).length = 0
  · rw [if_pos hnil, if_neg (by omega)]
    exact endTurn_same { s with stats := _ }
  · rw [if_neg hnil, if_pos (by omega)]

variable (P R) in
/-- What a turn does with a record that can be decoded. -/
lemma turn_eq [Encoding.Uvarint] (keep : BitVec 64 → ℤ → Bool) (toSegment : ℤ)
    (mint : BitVec 64) {rec : Bytes}
    {c : Contents} (h : Decoder.contents rec = some (.ok c)) (s : Loop) :
    ∃ st, s.turn P R keep toSegment mint rec = if size (relevant (keep · toSegment) mint c) = 0 then
        pure { s with
          latestMetadataMap :=
            (keepMetadata (keep · toSegment) 0 s.latestMetadataMap (metadataOf c)).2
          stats := st }
      else
        endTurn P s.buf.len
          { s.encode R (relevant (keep · toSegment) mint c).encode with stats := st } := by
  unfold Decoder.contents at h
  split at h
  case h_11 htype =>
    cases h
    exact ⟨s.stats, by simp only [turn, htype]; rfl⟩
  all_goals
    rename_i htype
    obtain ⟨xs, hxs, rfl⟩ := map_eq_ok_iff.1 h
    simp only [turn, htype, hxs]
  case h_5 => exact ⟨s.stats, rfl⟩
  case h_6 =>
    refine ⟨_, endTurn_same { s with latestMetadataMap := _, stats := _ }⟩
  all_goals exact compact_endTurn _ xs _ _ _ s

/-! ### The buffer -/

/-- An encoder that appends. -/
lemma appends_encode (hs : s.buf.Valid s.mem)
    (h : enc (s.mem.read s.buf) = s.mem.read s.buf ++ bs) :
    Appends s.mem s.buf bs (s.encode R enc).mem (s.encode R enc).buf := by
  have happend := s.mem.appends_appendAll hs R.spare 0 (R.pieces bs)
  rw [R.flatten_pieces] at happend
  simpa only [encode, h, if_pos (prefix_append _ _), drop_left] using happend

/-- An encoder that resets the buffer. -/
lemma len_encode_of_reset (hs : s.buf.Valid s.mem)
    (h : enc (s.mem.read s.buf) = []) : (s.encode R enc).buf.len = 0 := by
  have happend := s.mem.appends_appendAll hs.reset R.spare 0 (R.pieces [])
  have happend' := s.mem.appends_appendAll hs R.spare 0 (R.pieces [])
  rw [R.flatten_pieces] at happend happend'
  by_cases hnil : s.mem.read s.buf <+: []
  · have hlen := happend'.len_eq hs
    have hzero := hs.length_read
    rw [prefix_nil.1 hnil] at hzero
    simp only [encode, h, if_pos hnil, drop_nil]
    rw [hlen, ← hzero]
    rfl
  · simp only [encode, h, if_neg hnil]
    exact happend.len_eq hs.reset

/-- The records in the buffer and those that are logged hold `out`. -/
structure Inv [Encoding.Uvarint] (P : Params) (s : Loop) (out : List Contents) : Prop where
  valid : s.buf.Valid s.mem
  before : ∀ r ∈ s.recs, r.Before s.mem s.buf
  flushed : s.cp.page.flushed = s.cp.page.buf.length
  logged : ∃ done, WL.Logged P s.cp done ∧ Decodes (done ++ s.recs.map s.mem.read) out

namespace Inv

variable {out : List Contents}

/-- Only the buffer changes, by what is appended to it. -/
lemma append [Encoding.Uvarint] (h : Inv P s out) {mem : Mem (BitVec 8)} {buf : Slice}
    (happ : Appends s.mem s.buf bs mem buf) (ms : List RefMetadata) (st : CheckpointStats) :
    Inv P ⟨mem, buf, s.recs, ms, st, s.cp⟩ out where
  valid := happ.valid
  before r hr := happ.before r (h.before r hr)
  flushed := h.flushed
  logged := by
    obtain ⟨done, hdone, hout⟩ := h.logged
    refine ⟨done, hdone, ?_⟩
    rwa [map_congr_left fun r hr => happ.read_before r (h.before r hr)]

lemma log [Encoding.Uvarint] (hP : P.codec.Lawful) (h : Inv P s out) :
    ∃ cp recs, s.log P = pure { s with cp := cp } ∧ WL.Logged P cp recs ∧
      cp.page.flushed = cp.page.buf.length ∧ Decodes recs out := by
  obtain ⟨done, hdone, hout⟩ := h.logged
  obtain ⟨cp, hbatch, hlogged, hflushed⟩ := hdone.logBatch hP fun _ => h.flushed
  exact ⟨cp, _, by rw [Loop.log, hbatch], hlogged, hflushed, hout⟩

/-- The end of a turn that has encoded a record. -/
lemma endTurn [Encoding.Uvarint] (hP : P.codec.Lawful) (h : Inv P s out) (s' : Loop)
    (hrecs : s'.recs = s.recs)
    (hcp : s'.cp = s.cp) (happ : Appends s.mem s.buf bs s'.mem s'.buf) (hbs : bs ≠ [])
    {c : Contents} (hc : Decoder.contents bs = some (.ok c)) :
    ∃ s'', s'.endTurn P s.buf.len = pure s'' ∧ Inv P s'' (out ++ [c]) ∧
      s''.latestMetadataMap = s'.latestMetadataMap := by
  obtain ⟨r, htail, hlen, hread, hr⟩ := happ.tail h.valid hbs
  have hpos := length_pos_iff.2 hbs
  -- the new record is the end of the buffer, and the others are where they were
  have hinv : Inv P { s' with recs := s'.recs ++ [r] } (out ++ [c]) := by
    have happended := h.append happ s'.latestMetadataMap s'.stats
    obtain ⟨done, hdone, hout⟩ := happended.logged
    refine ⟨happ.valid, ?_, hcp ▸ h.flushed, done, hcp ▸ hdone, ?_⟩
    · intro x hx
      obtain hx | hx := mem_append.1 hx
      · exact happended.before x (hrecs ▸ hx)
      · rwa [mem_singleton.1 hx]
    have hnew : done ++ (s'.recs ++ [r]).map s'.mem.read =
        (done ++ s.recs.map s'.mem.read) ++ [bs] := by
      rw [hrecs, map_append, map_singleton, hread, append_assoc]
    rw [hnew]
    exact rel_append hout (.cons hc .nil)
  unfold Loop.endTurn
  rw [htail]
  dsimp only
  rw [if_neg (by omega)]
  split_ifs
  · obtain ⟨cp, recs, hlog, hlogged, hflushed, hout⟩ := hinv.log hP
    refine ⟨{ s' with buf := s'.buf.reset, recs := [], cp := cp }, ?_,
      ⟨hinv.valid.reset, by simp, hflushed, recs, hlogged, ?_⟩, rfl⟩
    · rw [hlog, pure_bind]
    · rwa [map_nil, append_nil]
  · exact ⟨_, rfl, hinv, rfl⟩

variable {keep : BitVec 64 → ℤ → Bool} {toSegment : ℤ} {mint : BitVec 64} {rec : Bytes}
  {c : Contents}

/-- A turn adds what is left of the record to the output, or panics because nothing is. -/
lemma turn [Encoding.Uvarint] (hP : P.codec.Lawful) (h : Inv P s out)
    (hrec : Decoder.contents rec = some (.ok c)) :
    ((relevant (keep · toSegment) mint c).Resets ∧
      s.turn P R keep toSegment mint rec = ExceptT.mk none) ∨
    ∃ s', s.turn P R keep toSegment mint rec = pure s' ∧
      Inv P s' (out ++ (nonempty (relevant (keep · toSegment) mint c).exponential).toList) ∧
      s'.latestMetadataMap =
        (keepMetadata (keep · toSegment) 0 s.latestMetadataMap (metadataOf c)).2 := by
  obtain ⟨st, hturn⟩ := turn_eq P R keep toSegment mint hrec s
  have hfits := fits_relevant (Contents.fits_of_contents hrec) (keep · toSegment) mint
  rw [hturn]
  have hmetadata := metadataOf_of_size c (keep · toSegment) mint
  generalize relevant (keep · toSegment) mint c = c' at hfits hmetadata ⊢
  by_cases hzero : size c' = 0
  · have hnone : nonempty c'.exponential = none :=
      if_pos (size_exponential_eq_zero_iff.2 (Or.inl hzero))
    rw [if_pos hzero, hnone, Option.toList_none, append_nil]
    exact Or.inr ⟨_, rfl, h.append (.refl h.valid) _ _, rfl⟩
  rw [if_neg hzero, hmetadata hzero]
  by_cases hreset : c'.Resets
  · have hlen := len_encode_of_reset (R := R) h.valid (Contents.encode_of_resets hreset _)
    by_cases hstart : s.buf.len = 0
    · -- the buffer was empty, so that nothing is missed
      have hnone : nonempty c'.exponential = none :=
        if_pos (size_exponential_eq_zero_iff.2 (Or.inr hreset))
      have hnil : s.mem.read s.buf = [] := by
        rw [← length_eq_zero_iff, h.valid.length_read, hstart]
      have happ : Appends s.mem s.buf [] (s.encode R c'.encode).mem (s.encode R c'.encode).buf :=
        appends_encode h.valid (by rw [Contents.encode_of_resets hreset, hnil]; rfl)
      refine Or.inr ⟨{ s.encode R c'.encode with stats := st }, ?_, ?_, rfl⟩
      · rw [hstart, ← hlen]
        exact endTurn_same { s.encode R c'.encode with stats := st }
      · rw [hnone, Option.toList_none, append_nil]
        exact h.append happ s.latestMetadataMap st
    · -- the buffer has become shorter than it was at the start of the turn
      refine Or.inl ⟨hreset, ?_⟩
      have htail : (s.encode R c'.encode).buf.tail s.buf.len = none := if_neg (by omega)
      simp only [Loop.endTurn, htail]
  · have hsize : size c'.exponential ≠ 0 := fun h0 =>
      (size_exponential_eq_zero_iff.1 h0).elim hzero hreset
    have hsome : nonempty c'.exponential = some c'.exponential := if_neg hsize
    obtain ⟨t, ht⟩ := Option.ne_none_iff_exists'.1 (type_of_size hzero)
    obtain ⟨bs, hbs⟩ := Contents.exists_encode hreset ht
    have happ := appends_encode (R := R) h.valid (hbs (s.mem.read s.buf))
    have hdecode := Contents.decode_encode hfits hreset (type_of_size hzero)
    rw [hbs, nil_append] at hdecode
    rw [hsome]
    exact Or.inr (h.endTurn hP { s.encode R c'.encode with stats := st } rfl rfl happ
      (cons_ne_nil _ _) hdecode)

/-- All turns. What is left of the records is added to the output in order. -/
lemma run [Encoding.Uvarint] (hP : P.codec.Lawful)
    (hrecs : Decodes recs input) {s : Loop} {out : List Contents} (h : Inv P s out)
    (hlatest : Latest (keep · toSegment) metadata s.latestMetadataMap) :
    ((∃ c ∈ input, (relevant (keep · toSegment) mint c).Resets) ∧
      recs.foldlM (Loop.turn P R keep toSegment mint) s = ExceptT.mk none) ∨
    ∃ s', recs.foldlM (Loop.turn P R keep toSegment mint) s = pure s' ∧
      Inv P s' (out ++ input.filterMap fun c =>
        nonempty (relevant (keep · toSegment) mint c).exponential) ∧
      Latest (keep · toSegment) (metadata ++ input.flatMap metadataOf) s'.latestMetadataMap := by
  induction hrecs generalizing s out metadata with
  | nil =>
    refine Or.inr ⟨s, rfl, ?_, ?_⟩
    · rwa [filterMap_nil, append_nil]
    · rwa [flatMap_nil, append_nil]
  | @cons rec c recs input hrec hrecs ih =>
    rw [foldlM_cons]
    obtain ⟨hreset, hturn⟩ | ⟨s', hturn, hs', hms⟩ := h.turn hP hrec
    · exact Or.inl ⟨⟨c, mem_cons_self, hreset⟩, by rw [hturn]; rfl⟩
    have hlatest' := hlatest.keepMetadata 0 (metadataOf c)
    rw [← hms] at hlatest'
    rw [hturn, pure_bind]
    obtain ⟨⟨c', hc', hreset⟩, hrun⟩ | ⟨s'', hrun, hs'', hms'⟩ := ih hs' hlatest'
    · exact Or.inl ⟨⟨c', mem_cons_of_mem _ hc', hreset⟩, hrun⟩
    refine Or.inr ⟨s'', hrun, ?_, ?_⟩
    · rw [append_assoc] at hs''
      cases hc : nonempty (relevant (keep · toSegment) mint c).exponential with
      | none => simpa [filterMap_cons, hc] using hs''
      | some c' => simpa [filterMap_cons, hc] using hs''
    · rwa [flatMap_cons, ← append_assoc]

end Inv

end Loop

/-! ### The whole function -/

variable {keep : BitVec 64 → Bool}

lemma Latest.perm {ms' : List RefMetadata}
    (h : Latest keep metadata ms) (hperm : ms'.Perm ms) : Latest keep metadata ms' where
  nodup := (hperm.map _).nodup_iff.2 h.nodup
  mem_iff m := by rw [hperm.mem_iff, h.mem_iff]

lemma Latest.fits (h : Latest keep metadata ms) (hfits : ∀ m ∈ metadata, MetadataFits m) :
    ∀ m ∈ ms, MetadataFits m := by
  intro m hm
  have hfind := ((h.mem_iff m).1 hm).2
  exact hfits m (mem_reverse.1 (mem_of_find?_eq_some hfind))

lemma Decodes.metadataFits [Encoding.Uvarint] (h : Decodes recs input) :
    ∀ m ∈ input.flatMap metadataOf, MetadataFits m := by
  induction h with
  | nil => simp
  | @cons rec c recs input hrec _ ih =>
    intro m hm
    rw [flatMap_cons, mem_append] at hm
    obtain hm | hm := hm
    · have hfits := Contents.fits_of_contents hrec
      cases c with
      | metadata xs => exact hfits m hm
      | _ => cases hm
    · exact ih m hm

lemma exists_newSize_default (compress : Compression) :
    ∃ cp, WL.newSize [] defaultSegmentSize compress = some cp := by
  refine ⟨_, if_neg ?_⟩
  rw [pageSize_eq]
  decide

section Checkpoint

variable [Encoding.Uvarint] {P : Params} (hP : P.codec.Lawful) (R : Runtime)

namespace Loop

include hP in
/-- The latest metadata are logged as one record. -/
lemma logMetadata_spec {s : Loop} (hvalid : s.buf.Valid s.mem)
    (hlogged : WL.Logged P s.cp recs) (hflushed : s.cp.page.flushed = s.cp.page.buf.length)
    (hfits : ∀ m ∈ s.latestMetadataMap, MetadataFits m) :
    ∃ s' recs', s.logMetadata P R = pure s' ∧ WL.Logged P s'.cp (recs ++ recs') ∧
      Decodes recs' (if R.traverse s.latestMetadataMap = [] then []
        else [.metadata (R.traverse s.latestMetadataMap)]) := by
  have hperm := R.traverse_perm s.latestMetadataMap
  unfold logMetadata
  by_cases hnil : s.latestMetadataMap = []
  · rw [hnil] at hperm ⊢
    rw [hperm.eq_nil]
    exact ⟨s, [], rfl, by rwa [append_nil], .nil⟩
  have hne : R.traverse s.latestMetadataMap ≠ [] := fun h =>
    hnil (nil_perm.1 (h ▸ hperm))
  rw [if_neg hne, if_pos (length_pos_iff.2 hnil)]
  -- the buffer is used again from its start on
  set enc := Encoder.metadata (R.traverse s.latestMetadataMap) with henc
  have happ : Appends s.mem s.buf.reset (enc []) _ _ :=
    appends_encode (R := R) (s := { s with buf := s.buf.reset }) hvalid.reset
      (show enc (s.mem.read s.buf.reset) = s.mem.read s.buf.reset ++ enc [] by
        rw [Slice.read_reset, nil_append])
  have hread := happ.read_eq
  rw [Slice.read_reset, nil_append] at hread
  obtain ⟨cp, hbatch, hlogged', -⟩ : ∃ cp, s.cp.logBatch P [enc []] = some cp ∧
      WL.Logged P cp (recs ++ [enc []]) ∧ cp.page.flushed = cp.page.buf.length :=
    hlogged.logBatch hP fun _ => hflushed
  refine ⟨{ ({ s with buf := s.buf.reset } : Loop).encode R enc with cp := cp }, [enc []], ?_,
    hlogged', .cons ?_ .nil⟩
  · dsimp only
    rw [hread, show (({ s with buf := s.buf.reset } : Loop).encode R enc).cp =
      s.cp from rfl, hbatch]
  · exact Contents.decode_encode (c := .metadata (R.traverse s.latestMetadataMap))
      (fun m hm => hfits m (hperm.mem_iff.1 hm)) id (Option.some_ne_none _)

end Loop

variable (compress : Compression) {dir : WalDir} {fromSegment toSegment : ℤ}
  (keep : BitVec 64 → ℤ → Bool) (mint : BitVec 64) {segs recs : List Bytes} {input : List Contents}
  (hsegs : dir.range fromSegment toSegment = .ok segs)
  (hread : readSegments P segs = (recs, none)) (hdecodes : Decodes recs input)
include hP hsegs hread hdecodes

omit hP hdecodes in
/-- `Checkpoint` of segments that can be read. -/
lemma checkpoint_eq {cp : WL} (hcp : WL.newSize [] defaultSegmentSize compress = some cp) :
    checkpoint P R compress dir fromSegment toSegment keep mint = (do
      let s ← recs.foldlM (Loop.turn P R keep toSegment mint)
        ⟨[], .nil, [], [], ⟨0, 0, 0, 0, 0, 0, 0, 0, 0, 0⟩, cp⟩
      let s ← s.log P
      let s ← s.logMetadata P R
      match s.cp.close with
      | none => throw .closeCheckpoint
      | some cp => return (s.stats, cp.files)) := by
  unfold checkpoint
  rw [hsegs,
    show ExceptT.mk (some (Except.ok segs)) = (pure segs : CheckpointM _) from rfl, pure_bind,
    hcp]
  rw [hread]

/-- `Checkpoint` panics, or the new checkpoint holds what the encoders leave of the relevant
entries, and the latest metadata. -/
lemma checkpoint_run :
    ((∃ c ∈ input, (relevant (keep · toSegment) mint c).Resets) ∧
      checkpoint P R compress dir fromSegment toSegment keep mint = ExceptT.mk none) ∨
    ∃ stats files out ms, checkpoint P R compress dir fromSegment toSegment keep mint =
        pure (stats, files) ∧
      readSegments P files = (out, none) ∧ Latest (keep · toSegment) (input.flatMap metadataOf) ms ∧
      Decodes out ((input.filterMap fun c =>
        nonempty (relevant (keep · toSegment) mint c).exponential) ++
          if ms = [] then [] else [.metadata ms]) := by
  obtain ⟨cp, hcp⟩ := exists_newSize_default compress
  obtain ⟨hlogged, hpage, -⟩ := WL.logged_newSize .nil hcp
  have hinit : Loop.Inv P ⟨[], .nil, [], [], ⟨0, 0, 0, 0, 0, 0, 0, 0, 0, 0⟩, cp⟩ [] :=
    ⟨Slice.valid_nil _, by simp, by rw [hpage]; rfl, [], hlogged, .nil⟩
  rw [checkpoint_eq R compress keep mint hsegs hread hcp]
  obtain ⟨hreset, hrun⟩ | ⟨s, hrun, hinv, hlatest⟩ :=
    hinit.run hP hdecodes (Latest.nil (keep · toSegment))
  · exact Or.inl ⟨hreset, by rw [hrun]; rfl⟩
  obtain ⟨cp', recs', hlog, hlogged', hflushed, hout⟩ := hinv.log hP
  have hfits := hlatest.fits hdecodes.metadataFits
  obtain ⟨s', md, hmeta, hlogged'', hmd⟩ := Loop.logMetadata_spec hP R
    (s := { s with cp := cp' }) hinv.valid hlogged' hflushed hfits
  obtain ⟨cp'', recss, hclose, hholds, hflat⟩ := hlogged''.close
  refine Or.inr ⟨s'.stats, cp''.files, _, R.traverse s.latestMetadataMap, ?_,
    readSegments_eq hholds,
    hlatest.perm (R.traverse_perm _), ?_⟩
  · rw [hrun, pure_bind, hlog, pure_bind, hmeta, pure_bind, hclose]
  · rw [hflat]
    exact rel_append hout hmd

end Checkpoint

/-! ### Histograms with custom buckets -/

/-- A record for histograms without custom buckets in which one with custom buckets is relevant. -/
def MixesCustomBuckets (mint : BitVec 64) : Contents → Prop
  | .histogramSamples xs | .floatHistogramSamples xs =>
    ∃ h ∈ xs, mint.sle h.t = true ∧ h.usesCustomBuckets = true
  | _ => False

variable {mint : BitVec 64} {c : Contents}

variable {xs : List RefHistogramSample}

lemma filter_exponential (h : ¬ ∃ h ∈ xs, mint.sle h.t = true ∧ h.usesCustomBuckets = true) :
    ((xs.filter fun x => mint.sle x.t).filter fun h => !h.usesCustomBuckets) =
      xs.filter fun x => mint.sle x.t := by
  refine filter_eq_self.2 fun x hx => ?_
  obtain ⟨hx, ht⟩ := mem_filter.1 hx
  by_contra hcustom
  exact h ⟨x, hx, ht, by simpa using hcustom⟩

/-- Without such histograms, the encoders set nothing aside. -/
lemma exponential_relevant (h : ¬ MixesCustomBuckets mint c) (keep : BitVec 64 → Bool) :
    (relevant keep mint c).exponential = relevant keep mint c := by
  cases c with
  | histogramSamples xs => exact congrArg Contents.histogramSamples (filter_exponential h)
  | floatHistogramSamples xs => exact congrArg Contents.floatHistogramSamples (filter_exponential h)
  | _ => rfl

lemma size_exponential_le (c : Contents) : size c.exponential ≤ size c := by
  cases c with
  | histogramSamples xs => exact length_filter_le _ xs
  | floatHistogramSamples xs => exact length_filter_le _ xs
  | _ => exact Nat.le_refl _

lemma length_filter_exponential (h : ∃ h ∈ xs, mint.sle h.t = true ∧ h.usesCustomBuckets = true) :
    ((xs.filter fun x => mint.sle x.t).filter fun h => !h.usesCustomBuckets).length <
      (xs.filter fun x => mint.sle x.t).length := by
  obtain ⟨x, hx, ht, hcustom⟩ := h
  exact length_filter_lt_length_iff_exists.2 ⟨x, mem_filter.2 ⟨hx, ht⟩, by simp [hcustom]⟩

lemma size_exponential_lt (h : MixesCustomBuckets mint c) (keep : BitVec 64 → Bool) :
    size (relevant keep mint c).exponential < size (relevant keep mint c) := by
  cases c with
  | histogramSamples xs => exact length_filter_exponential h
  | floatHistogramSamples xs => exact length_filter_exponential h
  | _ => exact h.elim

/-- A record that is thrown away holds such histograms. -/
lemma MixesCustomBuckets.of_resets
    (h : (relevant keep mint c).Resets) : MixesCustomBuckets mint c := by
  by_contra hnot
  have hzero := size_exponential_eq_zero_iff.2 (Or.inr h)
  rw [exponential_relevant hnot] at hzero
  cases c with
  | histogramSamples xs => exact h.1 (length_eq_zero_iff.1 hzero)
  | floatHistogramSamples xs => exact h.1 (length_eq_zero_iff.1 hzero)
  | _ => exact h.elim

lemma sum_size_filterMap (f : Contents → Contents) (input : List Contents) :
    ((input.filterMap fun c => nonempty (f c)).map size).sum =
      (input.map fun c => size (f c)).sum := by
  induction input with
  | nil => rfl
  | cons c input ih =>
    by_cases hzero : size (f c) = 0
    · have hnone : nonempty (f c) = none := if_pos hzero
      rw [filterMap_cons_none (f := fun c => nonempty (f c)) hnone, ih, map_cons, sum_cons,
        hzero, Nat.zero_add]
    have hsome : nonempty (f c) = some (f c) := if_neg hzero
    rw [filterMap_cons_some (f := fun c => nonempty (f c)) hsome, map_cons, sum_cons, ih, map_cons,
      sum_cons]

lemma sum_size_metadata (ms : List RefMetadata) :
    ((if ms = [] then [] else [Contents.metadata ms]).map size).sum = 0 := by
  split_ifs <;> rfl

lemma Decodes.unique [Encoding.Uvarint] {cs cs' : List Contents} (h : Decodes recs cs)
    (h' : Decodes recs cs') : cs = cs' := by
  induction h generalizing cs' with
  | nil =>
    cases h'
    rfl
  | cons hrec _ ih =>
    cases h' with
    | cons hrec' hrecs' =>
      rw [ih hrecs']
      rw [hrec'] at hrec
      cases hrec
      rfl

/-- For a log that can be read, `Checkpoint` succeeds and writes the relevant entries of all records
in order, and the latest metadata after them, if and only if no record for histograms without custom
buckets holds one with custom buckets that is relevant. -/
theorem checkpoint_filters_iff [Encoding.Uvarint] {P : Params} (hP : P.codec.Lawful) (R : Runtime)
    (compress : Compression) (dir : WalDir) (fromSegment toSegment : ℤ)
    (keep : BitVec 64 → ℤ → Bool) (mint : BitVec 64) {segs recs : List Bytes}
    {input : List Contents}
    (hsegs : dir.range fromSegment toSegment = .ok segs)
    (hread : readSegments P segs = (recs, none)) (hdecodes : Decodes recs input) :
    (∃ stats files, checkpoint P R compress dir fromSegment toSegment keep mint =
      pure (stats, files) ∧
      Filtered P (keep · toSegment) mint input files) ↔
      ∀ c ∈ input, ¬ MixesCustomBuckets mint c := by
  have hrun := checkpoint_run hP R compress keep mint hsegs hread hdecodes
  constructor
  · rintro ⟨stats, files, hcheck, out, ms, hfiles, -, hout⟩ c hc hmixes
    obtain ⟨-, hpanic⟩ | ⟨stats', files', out', ms', hcheck', hfiles', -, hout'⟩ := hrun
    · rw [hcheck] at hpanic
      cases hpanic
    -- the checkpoint has fewer entries than it should have
    rw [hcheck] at hcheck'
    cases hcheck'
    rw [hfiles] at hfiles'
    cases hfiles'
    have hsum := congrArg (fun cs => (cs.map size).sum) (hout.unique hout')
    simp only [map_append, sum_append, sum_size_metadata, sum_size_filterMap, Nat.add_zero] at hsum
    refine Nat.ne_of_lt (sum_lt_sum _ _ (fun c _ => size_exponential_le _) ?_) hsum.symm
    exact ⟨c, hc, size_exponential_lt hmixes _⟩
  · intro hnone
    obtain ⟨⟨c, hc, hreset⟩, -⟩ | ⟨stats, files, out, ms, hcheck, hfiles, hlatest, hout⟩ := hrun
    · exact absurd (MixesCustomBuckets.of_resets hreset) (hnone c hc)
    refine ⟨stats, files, hcheck, out, ms, hfiles, hlatest, ?_⟩
    rwa [filterMap_congr fun c hc =>
      congrArg nonempty (exponential_relevant (hnone c hc) (keep · toSegment))] at hout

section Examples

/-- New arrays without spare room, encoders that append all at once. -/
def plainRuntime : Runtime := ⟨fun _ _ => 0, fun bs => [bs], fun _ => flatten_singleton, id,
  fun _ => .refl _⟩

/-- A histogram with custom buckets. -/
def customHistogram : Histogram := ⟨0, -53, 0, 0, 1, 0, [⟨0, 1⟩], [], [1], [], [5]⟩

/-- A record of type `HistogramSamples` that holds it, as older versions write it. -/
def customHistogramRecord : Bytes :=
  RecordType.histogramSamples.byte :: (Encoding.putBE64 1 ++ Encoding.putBE64 5 ++
    (putDeltas 1 5 1 5 ++ encodeHistogram customHistogram))

/-- A record of samples and then one of histograms, of which one has custom buckets. The buffer is
cut to length zero after the samples have been encoded, and `Checkpoint` panics. -/
theorem checkpoint_panics_customBuckets :
    let P : Params := ⟨fun _ => 0, WL.storeOnly⟩
    let recs := [Encoder.samples [⟨1, 5, 0⟩] [], customHistogramRecord]
    let dir : WalDir := ⟨[], [(0, recs.flatMap (fragment P .full .none))]⟩
    dir.range 0 0 = .ok [recs.flatMap (fragment P .full .none)] ∧
      readSegments P [recs.flatMap (fragment P .full .none)] = (recs, none) ∧
      Decodes recs [.samples [⟨1, 5, 0⟩], .histogramSamples [⟨1, 5, customHistogram⟩]] ∧
      checkpoint P plainRuntime .none dir 0 0 (fun _ _ => true) 0 = ExceptT.mk none := by
  intro P recs dir
  have hread : readSegments P [recs.flatMap (fragment P .full .none)] = (recs, none) :=
    readSegments_full recs (by rw [pageSize_eq]; decide +kernel)
  refine ⟨rfl, hread, .cons (by decide +kernel) (.cons (by decide +kernel) .nil), ?_⟩
  obtain ⟨cp, hcp⟩ := exists_newSize_default .none
  have hrun : recs.foldlM (Loop.turn P plainRuntime (fun _ _ => true) 0 0)
      ⟨[], .nil, [], [], ⟨0, 0, 0, 0, 0, 0, 0, 0, 0, 0⟩, cp⟩ = ExceptT.mk none := rfl
  rw [checkpoint_eq plainRuntime .none (fun _ _ => true) 0 rfl hread hcp, hrun]
  rfl

/-- Samples before and after the time, histograms with custom buckets in a record of their own, and
metadata that are replaced. -/
theorem checkpoint_filters_three :
    let P : Params := ⟨fun _ => 0, WL.storeOnly⟩
    let recs := [Encoder.samples [⟨1, 4, 0⟩, ⟨1, 5, 0⟩] [],
      Encoder.customBucketsHistogramSamples [⟨1, 5, customHistogram⟩] [],
      Encoder.metadata [⟨1, 2, [], [0x61]⟩, ⟨1, 2, [], [0x62]⟩] []]
    let dir : WalDir := ⟨[], [(0, recs.flatMap (fragment P .full .none))]⟩
    ∃ stats files, checkpoint P plainRuntime .none dir 0 0 (fun _ _ => true) 5 =
      pure (stats, files) ∧
      Filtered P (fun _ => true) 5 [.samples [⟨1, 4, 0⟩, ⟨1, 5, 0⟩],
        .customBucketsHistogramSamples [⟨1, 5, customHistogram⟩],
        .metadata [⟨1, 2, [], [0x61]⟩, ⟨1, 2, [], [0x62]⟩]] files := by
  intro P recs dir
  have hread : readSegments P [recs.flatMap (fragment P .full .none)] = (recs, none) :=
    readSegments_full recs (by rw [pageSize_eq]; decide +kernel)
  have hdecodes : Decodes recs [.samples [⟨1, 4, 0⟩, ⟨1, 5, 0⟩],
      .customBucketsHistogramSamples [⟨1, 5, customHistogram⟩],
      .metadata [⟨1, 2, [], [0x61]⟩, ⟨1, 2, [], [0x62]⟩]] :=
    .cons (by decide +kernel) (.cons (by decide +kernel) (.cons (by decide +kernel) .nil))
  refine (checkpoint_filters_iff WL.storeOnly_lawful plainRuntime .none dir 0 0
    (fun _ _ => true) 5 rfl
    hread hdecodes).2 fun c hc => ?_
  simp only [mem_cons, not_mem_nil, or_false] at hc
  obtain rfl | rfl | rfl := hc <;> exact id

end Examples

end Prometheus.Wlog
