import Prometheus.Tsdb.HeadAppend

/-!
# The samples of a series, and how a commit changes them

A sample that is committed to a series without out-of-order ingestion is added at the end if it is
later than the last time of the series, and dropped otherwise (`commitValue_spec`). So of a sequence
of samples, those are added that are later than all before them (`later`).
-/

namespace Prometheus.Tsdb

open GoInt Record List

variable {V : Type}

/-! ### Samples that are later than all before them -/

/-- The samples that are later than `last` and all samples before them. -/
def later (last : ℤ) : List (ℤ × V) → List (ℤ × V)
  | [] => []
  | x :: xs => if last < x.1 then x :: later x.1 xs else later last xs

lemma mem_later_iff {last : ℤ} {xs : List (ℤ × V)} {x : ℤ × V} :
    x ∈ later last xs ↔
      ∃ before after, xs = before ++ x :: after ∧ last < x.1 ∧ ∀ y ∈ before, y.1 < x.1 := by
  induction xs generalizing last with
  | nil => simp [later]
  | cons y xs ih =>
    rw [later]
    constructor
    · intro hx
      split at hx
      case isTrue hlt =>
        rcases mem_cons.1 hx with rfl | hx
        · exact ⟨[], xs, rfl, hlt, by simp⟩
        obtain ⟨before, after, rfl, hlast, hbefore⟩ := ih.1 hx
        refine ⟨y :: before, after, rfl, hlt.trans hlast, ?_⟩
        exact forall_mem_cons.2 ⟨hlast, hbefore⟩
      case isFalse hge =>
        obtain ⟨before, after, rfl, hlast, hbefore⟩ := ih.1 hx
        refine ⟨y :: before, after, rfl, hlast, ?_⟩
        exact forall_mem_cons.2 ⟨lt_of_le_of_lt (not_lt.1 hge) hlast, hbefore⟩
    · rintro ⟨before, after, heq, hlast, hbefore⟩
      cases before with
      | nil =>
        cases heq
        rw [if_pos hlast]
        exact mem_cons_self
      | cons z before =>
        obtain ⟨rfl, rfl⟩ := cons.inj heq
        have hz : y.1 < x.1 := hbefore y mem_cons_self
        have hrest : ∀ y ∈ before, y.1 < x.1 := fun z hz => hbefore z (mem_cons_of_mem _ hz)
        split
        · exact mem_cons_of_mem _ (ih.2 ⟨before, after, rfl, hz, hrest⟩)
        · exact ih.2 ⟨before, after, rfl, hlast, hrest⟩

/-! ### The chunks of a series -/

variable {t : ℤ}

namespace SeriesChunks

/-- The in-order samples of a series. -/
def samples (s : SeriesChunks V) : List (ℤ × V) :=
  s.inOrder.items.flatMap (·.samples)

variable {s : SeriesChunks V}

lemma samples_eq (s : SeriesChunks V) :
    s.samples = (load s.disk s.mmappedChunks).flatMap (·.samples) ++
      s.headChunks.reverse.flatMap (·.samples) := by
  rw [samples, inOrder, flatMap_append]

/-- What new in-order samples do not touch. -/
structure SameElsewhere (s s' : SeriesChunks V) : Prop where
  ref : s'.ref = s.ref
  disk : s'.disk = s.disk
  mmappedChunks : s'.mmappedChunks = s.mmappedChunks
  ooo : s'.ooo = s.ooo

lemma SameElsewhere.onDisk {s' : SeriesChunks V} (h : SameElsewhere s s') (hs : s.OnDisk) :
    s'.OnDisk where
  mmapped := by
    rw [h.mmappedChunks, h.disk]
    exact hs.mmapped
  ooo := by
    rw [h.ooo, h.disk]
    exact hs.ooo

lemma SameElsewhere.trans {s₁ s₂ s₃ : SeriesChunks V} (h : SameElsewhere s₁ s₂)
    (h' : SameElsewhere s₂ s₃) : SameElsewhere s₁ s₃ :=
  ⟨h'.ref.trans h.ref, h'.disk.trans h.disk, h'.mmappedChunks.trans h.mmappedChunks,
    h'.ooo.trans h.ooo⟩

variable (s)

lemma sameElsewhere_cutNewHeadChunk (mint : ℤ) : SameElsewhere s (s.cutNewHeadChunk mint) :=
  ⟨rfl, rfl, rfl, rfl⟩

lemma samples_cutNewHeadChunk (mint : ℤ) : (s.cutNewHeadChunk mint).samples = s.samples := by
  rw [samples_eq, samples_eq]
  simp [cutNewHeadChunk]

/-- Cutting chunks adds no sample. -/
lemma iterate_cutNewHeadChunk (mint : ℤ) (cuts : ℕ) :
    SameElsewhere s ((cutNewHeadChunk mint)^[cuts] s) ∧
      ((cutNewHeadChunk mint)^[cuts] s).samples = s.samples ∧
      (s.headChunks ≠ [] → ((cutNewHeadChunk mint)^[cuts] s).headChunks ≠ []) := by
  induction cuts with
  | zero => exact ⟨⟨rfl, rfl, rfl, rfl⟩, rfl, id⟩
  | succ cuts ih =>
    rw [Function.iterate_succ_apply']
    refine ⟨ih.1.trans (sameElsewhere_cutNewHeadChunk _ mint), ?_, ?_⟩
    · rw [samples_cutNewHeadChunk, ih.2.1]
    · exact fun _ => cons_ne_nil _ _

variable {s}

/-- A sample that is later than the last time of the series gets a chunk. -/
lemma appendPreprocessor_of_lt (hmin : minInt64 ≤ s.maxTime) (ht : s.maxTime < t) (cuts : ℕ) :
    ∃ s', s.appendPreprocessor t cuts = (true, s') ∧ SameElsewhere s s' ∧ s'.samples = s.samples ∧
      s'.headChunks ≠ [] := by
  cases hhead : s.headChunks with
  | nil =>
    rw [maxTime, hhead] at ht hmin
    have hmmapped : s.mmappedChunks.getLast?.any (fun c => decide (c.maxTime ≥ t)) = false := by
      cases hlast : s.mmappedChunks.getLast? with
      | none => rfl
      | some c =>
        rw [hlast] at ht
        simpa using ht
    have hnew : ¬ minInt64 ≥ t := not_le.2 (lt_of_le_of_lt hmin ht)
    obtain ⟨hsame, hsamples, hne⟩ := iterate_cutNewHeadChunk (s.cutNewHeadChunk t) t cuts
    refine ⟨_, ?_, (sameElsewhere_cutNewHeadChunk s t).trans hsame, ?_, hne (cons_ne_nil _ _)⟩
    · rw [appendPreprocessor]
      simp [hhead, hmmapped, cutNewHeadChunk, hnew]
    · rw [hsamples, samples_cutNewHeadChunk]
  | cons c cs =>
    rw [maxTime, hhead] at ht
    obtain ⟨hsame, hsamples, hne⟩ := iterate_cutNewHeadChunk s t cuts
    refine ⟨_, ?_, hsame, hsamples, hne (by rw [hhead]; exact cons_ne_nil _ _)⟩
    rw [appendPreprocessor]
    simp [hhead, not_le.2 ht]

/-- Any other sample is out of order. -/
lemma appendPreprocessor_of_le (ht : t ≤ s.maxTime) (cuts : ℕ) :
    ∃ s', s.appendPreprocessor t cuts = (false, s') ∧ SameElsewhere s s' ∧ s'.samples = s.samples ∧
      s'.maxTime = s.maxTime := by
  cases hhead : s.headChunks with
  | nil =>
    rw [maxTime, hhead] at ht
    cases hlast : s.mmappedChunks.getLast? with
    | none =>
      -- There is no chunk, and the time is the least one: the chunk that is cut stays empty.
      rw [hlast] at ht
      refine ⟨s.cutNewHeadChunk t, ?_, sameElsewhere_cutNewHeadChunk s t,
        samples_cutNewHeadChunk s t, ?_⟩
      · have hle : t ≤ minInt64 := ht
        rw [appendPreprocessor]
        simp [hhead, hlast, cutNewHeadChunk, hle]
      · simp [maxTime, cutNewHeadChunk, hhead, hlast]
    | some c =>
      rw [hlast] at ht
      have hle : t ≤ c.maxTime := ht
      refine ⟨s, ?_, ⟨rfl, rfl, rfl, rfl⟩, rfl, rfl⟩
      rw [appendPreprocessor]
      simp [hhead, hlast, hle]
  | cons c cs =>
    rw [maxTime, hhead] at ht
    have hle : t ≤ c.maxTime := ht
    refine ⟨s, ?_, ⟨rfl, rfl, rfl, rfl⟩, rfl, rfl⟩
    rw [appendPreprocessor]
    simp [hhead, hle]

lemma appendSample_spec (hne : s.headChunks ≠ []) (t : ℤ) (v : V) :
    SameElsewhere s (s.appendSample t v) ∧ (s.appendSample t v).samples = s.samples ++ [(t, v)] ∧
      (s.appendSample t v).maxTime = t := by
  rw [appendSample]
  cases hhead : s.headChunks with
  | nil => exact absurd hhead hne
  | cons c cs =>
    refine ⟨⟨rfl, rfl, rfl, rfl⟩, ?_, rfl⟩
    rw [samples_eq, samples_eq, hhead]
    simp

end SeriesChunks

variable {s : HeadSeries}

namespace HeadSeries

/-- The in-order samples of a series. -/
def samples (s : HeadSeries) : List (ℤ × SampleValue) :=
  s.chunks.samples

/-- The samples of a series have increasing times up to its last time. -/
structure WF (s : HeadSeries) : Prop where
  onDisk : s.chunks.OnDisk
  sorted : s.samples.Pairwise (·.1 < ·.1)
  le_maxTime : ∀ x ∈ s.samples, x.1 ≤ s.maxTime
  minInt64_le : minInt64 ≤ s.maxTime

lemma wf_new (lset : List Label) (ref : ℕ) (pendingCommit : Bool) :
    (new lset ref pendingCommit).WF where
  onDisk := by
    constructor
    · intro m hm
      cases hm
    · intro o ho
      cases ho
  sorted := .nil
  le_maxTime := by
    intro x hx
    cases hx
  minInt64_le := le_rfl

/-- Well-formedness is about the chunks only. -/
lemma WF.of_chunks {s' : HeadSeries} (hs : s.WF) (h : s'.chunks = s.chunks) : s'.WF := by
  obtain ⟨hdisk, hsorted, hle, hmin⟩ := hs
  constructor
  · rwa [h]
  · rwa [samples, h]
  · rwa [samples, maxTime, h]
  · rwa [maxTime, h]

/-- A later sample is added at the end. -/
lemma WF.append_of_lt (hs : s.WF) (rules : ChunkRules) (ht : s.maxTime < t) (v : SampleValue) :
    (s.append rules t v).1 = true ∧ (s.append rules t v).2.WF ∧
      (s.append rules t v).2.samples = s.samples ++ [(t, v)] ∧ (s.append rules t v).2.maxTime = t ∧
      SeriesChunks.SameElsewhere s.chunks (s.append rules t v).2.chunks := by
  obtain ⟨c, hc, hsame, hsamples, hne⟩ :=
    SeriesChunks.appendPreprocessor_of_lt hs.minInt64_le ht (rules.cuts s.chunks.ref t)
  obtain ⟨hsame', hsamples', hmax⟩ := SeriesChunks.appendSample_spec hne t v
  have hsamples'' : (c.appendSample t v).samples = s.samples ++ [(t, v)] := by
    rw [hsamples', hsamples, samples]
  rw [append, hc]
  refine ⟨rfl, ?_, hsamples'', hmax, hsame.trans hsame'⟩
  constructor
  · exact (hsame.trans hsame').onDisk hs.onDisk
  · rw [samples, hsamples'']
    refine pairwise_append.2 ⟨hs.sorted, pairwise_singleton _ _, ?_⟩
    intro x hx y hy
    rw [mem_singleton.1 hy]
    exact lt_of_le_of_lt (hs.le_maxTime x hx) ht
  · intro x hx
    rw [samples, hsamples''] at hx
    rw [maxTime, hmax]
    rcases mem_append.1 hx with hx | hx
    · exact (lt_of_le_of_lt (hs.le_maxTime x hx) ht).le
    · rw [mem_singleton.1 hx]
  · rw [maxTime, hmax]
    exact hs.minInt64_le.trans ht.le

/-- Any other sample is dropped. -/
lemma WF.append_of_le (hs : s.WF) (rules : ChunkRules) (ht : t ≤ s.maxTime) (v : SampleValue) :
    (s.append rules t v).1 = false ∧ (s.append rules t v).2.WF ∧
      (s.append rules t v).2.samples = s.samples ∧ (s.append rules t v).2.maxTime = s.maxTime ∧
      SeriesChunks.SameElsewhere s.chunks (s.append rules t v).2.chunks := by
  obtain ⟨c, hc, hsame, hsamples, hmax⟩ :=
    SeriesChunks.appendPreprocessor_of_le ht (rules.cuts s.chunks.ref t)
  rw [append, hc]
  refine ⟨rfl, ?_, hsamples, hmax, hsame⟩
  constructor
  · exact hsame.onDisk hs.onDisk
  · rw [samples, hsamples]
    exact hs.sorted
  · rw [samples, hsamples, maxTime, hmax]
    exact hs.le_maxTime
  · rw [maxTime, hmax]
    exact hs.minInt64_le

end HeadSeries

variable {minValidTime : ℤ}

/-- Without out-of-order ingestion, a sample is appendable in order if it is late enough. -/
lemma HeadSeries.appendableWith_of_lt {headMaxt : ℤ}
    (ht : minValidTime ≤ t) (hlt : s.maxTime < t) (duplicate : Option AppendError) (window : ℤ) :
    s.appendableWith duplicate t headMaxt minValidTime window = .ok false := by
  unfold appendableWith
  split
  · rfl
  · rw [if_pos ⟨ht, hlt⟩]

lemma HeadSeries.appendableWith_ne_true {headMaxt : ℤ} (duplicate : Option AppendError) :
    s.appendableWith duplicate t headMaxt minValidTime 0 ≠ .ok true := by
  unfold appendableWith
  split_ifs <;> simp_all
  split <;> simp_all

/-- The three checks are the same but for duplicates. -/
lemma HeadSeries.appendableValue_eq (s : HeadSeries) (t : ℤ) (v : SampleValue) :
    ∃ duplicate, s.appendableValue t v = s.appendableWith duplicate t := by
  cases v with
  | float v => exact ⟨_, rfl⟩
  | histogram h => exact ⟨_, rfl⟩
  | floatHistogram fh => exact ⟨_, rfl⟩

namespace HeadAppender

variable {a : HeadAppender} {s : HeadSeries}

/-- The commit of a sample without out-of-order ingestion: it is added if it is later than the last
time of the series, and dropped otherwise. -/
theorem commitValue_spec (hs : s.WF) (hooo : a.oooTimeWindow = 0) (opts : HeadOptions)
    (ht : a.minValidTime ≤ t) (v : SampleValue) :
    (a.commitValue opts t v s).1 = decide (s.maxTime < t) ∧ (a.commitValue opts t v s).2.WF ∧
      (a.commitValue opts t v s).2.samples =
        (if s.maxTime < t then s.samples ++ [(t, v)] else s.samples) ∧
      (a.commitValue opts t v s).2.maxTime = max s.maxTime t := by
  obtain ⟨duplicate, hdup⟩ := s.appendableValue_eq t v
  rw [commitValue, hdup, hooo]
  by_cases hlt : s.maxTime < t
  · rw [HeadSeries.appendableWith_of_lt ht hlt]
    obtain ⟨hok, hwf, hsamples, hmax, -⟩ := hs.append_of_lt opts.rules hlt v
    rw [if_pos hlt, max_eq_right hlt.le]
    exact ⟨by simp [hok, hlt], hwf.of_chunks rfl, hsamples, hmax⟩
  have hle := not_lt.1 hlt
  rw [if_neg hlt, max_eq_left hle, decide_eq_false hlt]
  cases hcase : s.appendableWith duplicate t a.headMaxt a.minValidTime 0 with
  | error err => exact ⟨rfl, hs.of_chunks rfl, rfl, rfl⟩
  | ok isOOO =>
    cases isOOO with
    | true => exact absurd hcase (HeadSeries.appendableWith_ne_true duplicate)
    | false =>
      obtain ⟨hok, hwf, hsamples, hmax, -⟩ := hs.append_of_le opts.rules hle v
      exact ⟨hok, hwf.of_chunks rfl, hsamples, hmax⟩

/-- The commits of some samples of one series. -/
def commitValues (a : HeadAppender) (opts : HeadOptions) (xs : List (ℤ × SampleValue))
    (s : HeadSeries) : HeadSeries :=
  xs.foldl (fun s x => (a.commitValue opts x.1 x.2 s).2) s

/-- Of a sequence of samples, those are added that are later than all before them. -/
lemma commitValues_spec (hs : s.WF) (hooo : a.oooTimeWindow = 0) (opts : HeadOptions)
    {xs : List (ℤ × SampleValue)} (hxs : ∀ x ∈ xs, a.minValidTime ≤ x.1) :
    (a.commitValues opts xs s).WF ∧
      (a.commitValues opts xs s).samples = s.samples ++ later s.maxTime xs := by
  induction xs generalizing s with
  | nil => exact ⟨hs, (append_nil _).symm⟩
  | cons x xs ih =>
    obtain ⟨-, hwf, hsamples, hmax⟩ :=
      commitValue_spec hs hooo opts (hxs x mem_cons_self) x.2
    obtain ⟨hwf', hsamples'⟩ := ih hwf fun y hy => hxs y (mem_cons_of_mem x hy)
    refine ⟨hwf', hsamples'.trans ?_⟩
    rw [hsamples, hmax, later]
    split
    case isTrue hlt =>
      rw [max_eq_right hlt.le]
      simp
    case isFalse hge => rw [max_eq_left (not_lt.1 hge)]

end HeadAppender
end Prometheus.Tsdb
