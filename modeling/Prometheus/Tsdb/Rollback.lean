import Prometheus.Tsdb.Commit

/-!
# What a rollback leaves

`Rollback` forgets what an appender has buffered. The new series stay in the head, so they have to
be logged even now, which is done by `log` after the buffers were emptied. One of the buffers is not
emptied, the one with the float histograms: they are logged as if they were committed, and come back
when the log is replayed.

A series is marked as pending while an appender holds samples for it, and is not garbage collected
then. `Rollback` unmarks the series of floats and of histograms, and the new ones. Series of float
histograms stay marked, and so do those to which an integer histogram was refused, since it is
refusal that marks them. `rollback_clean_iff` says for which runs none of this happens.
-/

namespace Prometheus.Tsdb

open GoInt Record AppendEvent List Head HeadAppender

/-- What a rollback should leave of a run `r` that started with the head `h`. -/
structure Clean (h : Head) (r : AppendRun) (h' : Head) : Prop where
  /-- The log gains only series records, for series that the run created. -/
  wal : ∃ records, h'.wal = h.wal.map (· ++ records) ∧ ∀ rec ∈ records, ∃ refs, rec = .series refs ∧
    ∀ x ∈ refs, x.1 ∈ h'.series ∧ x.1 ∉ h.series ∧ (h'.mem x.1).lset = x.2
  /-- No series gains a sample. -/
  chunks : ∀ ref ∈ h'.series,
    (h'.mem ref).chunks = if ref ∈ h.series then (h.mem ref).chunks else .new ref
  pendingCommit : ∀ ref ∈ h'.series, (h'.mem ref).pendingCommit = false
  /-- The append ID is closed. -/
  appendID : ∀ a, r.app = some a → h'.iso.disabled = false → a.appendID ∉ h'.iso.appendsOpen

/-! ### What the events of a run leave -/

/-- The head with the new series of an appender, and otherwise as it was. -/
structure Extends (h : Head) (s : HeadAppender × Head) : Prop where
  wal : s.2.wal = h.wal
  le_lastSeriesID : ∀ ref ∈ s.2.series, ref ≤ s.2.lastSeriesID
  series : s.2.series = h.series ++ s.1.seriesRefs.map (·.1)
  created : ∀ x ∈ s.1.seriesRefs, x.1 ∉ h.series ∧ (s.2.mem x.1).lset = x.2
  chunks : ∀ ref ∈ s.2.series,
    (s.2.mem ref).chunks = if ref ∈ h.series then (h.mem ref).chunks else .new ref

namespace Extends

variable {h h' : Head} {a a' : HeadAppender} (hs : Extends h (a, h'))
include hs

lemma mem_series (ref : ℕ) : ref ∈ h'.series ↔ ref ∈ h.series ∨ ref ∈ a.seriesRefs.map (·.1) := by
  rw [hs.series, mem_append]

/-- A change of a series that leaves its labels and its chunks alone. -/
lemma update (ref : ℕ) {f : HeadSeries → HeadSeries}
    (hf : ∀ s, (f s).lset = s.lset ∧ (f s).chunks = s.chunks) : Extends h (a, h'.update ref f) := by
  have hmem : ∀ r, ((h'.update ref f).mem r).lset = (h'.mem r).lset ∧
      ((h'.update ref f).mem r).chunks = (h'.mem r).chunks := by
    intro r
    by_cases hr : r = ref
    · rw [hr, update_mem_self]
      exact hf _
    · rw [update_mem_of_ne _ hr]
      exact ⟨rfl, rfl⟩
  refine ⟨hs.wal, hs.le_lastSeriesID, hs.series, ?_, ?_⟩
  · intro x hx
    rw [(hmem x.1).1]
    exact hs.created x hx
  intro r hr
  rw [(hmem r).2]
  exact hs.chunks r hr

lemma of_seriesRefs (heq : a'.seriesRefs = a.seriesRefs) : Extends h (a', h') := by
  refine ⟨hs.wal, hs.le_lastSeriesID, ?_, ?_, hs.chunks⟩
  · rw [heq]
    exact hs.series
  · rw [heq]
    exact hs.created

lemma create (lset : List Label) : Extends h (apply (a, h') (.create lset)) := by
  -- The new address was not in use.
  have hfresh : ∀ r ∈ h'.series, r ≠ h'.lastSeriesID + 1 := by
    intro r hr heq
    exact absurd (hs.le_lastSeriesID r hr) (by simp [heq])
  have hnew : h'.lastSeriesID + 1 ∉ h.series := fun hmem =>
    hfresh _ ((hs.mem_series _).2 (.inl hmem)) rfl
  refine ⟨hs.wal, ?_, ?_, ?_, ?_⟩
  · intro r hr
    rcases mem_append.1 hr with hr | hr
    · exact Nat.le_succ_of_le (hs.le_lastSeriesID r hr)
    · exact (mem_singleton.1 hr).le
  · have hseries : h'.series = h.series ++ a.seriesRefs.map (·.1) := hs.series
    simp [apply, Head.create, hseries]
  · intro x hx
    rcases mem_append.1 hx with hx | hx
    · obtain ⟨hold, hlset⟩ := hs.created x hx
      have hmem : x.1 ∈ h'.series := (hs.mem_series _).2 (.inr (mem_map_of_mem hx))
      refine ⟨hold, ?_⟩
      rw [apply, Head.create_mem_of_ne _ (hfresh _ hmem)]
      exact hlset
    · rw [mem_singleton.1 hx]
      exact ⟨hnew, by rw [apply, Head.create_mem_self]; rfl⟩
  · intro r hr
    rcases mem_append.1 hr with hr | hr
    · rw [apply, Head.create_mem_of_ne _ (hfresh r hr)]
      exact hs.chunks r hr
    · rw [mem_singleton.1 hr, if_neg hnew, apply, Head.create_mem_self]
      rfl

end Extends

variable {h : Head} {s s' : HeadAppender × Head} {es : List AppendEvent} {ref : ℕ}

/-- An appender that has just started has added nothing. -/
lemma Head.Started.extends {h₁ : Head} (hstart : h.Started h₁)
    (hrefs : ∀ ref ∈ h.series, ref ≤ h.lastSeriesID) (pick : Option ℕ) :
    Extends h (h₁.appender pick) := by
  obtain ⟨hwal, hlast, hseries, hmem⟩ := hstart.same
  have hseries₀ : (h₁.appender pick).2.series = h.series := hseries
  have hlast₀ : (h₁.appender pick).2.lastSeriesID = h.lastSeriesID := hlast
  have hmem₀ : (h₁.appender pick).2.mem = h.mem := hmem
  refine ⟨hwal, ?_, ?_, ?_, ?_⟩
  · rw [hseries₀, hlast₀]
    exact hrefs
  · exact hseries₀.trans (append_nil _).symm
  · intro x hx
    cases hx
  · intro ref href
    rw [hseries₀] at href
    rw [hmem₀, if_pos href]

/-- Every event keeps what there was and adds at most a series. -/
lemma Extends.runs (hs : Extends h s) (hes : Runs s es s') : Extends h s' := by
  refine hes.induction ?_ hs
  rintro ⟨a, h'⟩ e hs he
  cases e with
  | create lset => exact hs.create lset
  | skipID =>
    exact ⟨hs.wal, fun ref href => Nat.le_succ_of_le (hs.le_lastSeriesID ref href), hs.series,
      hs.created, hs.chunks⟩
  | accept x =>
    have hbuffer := hs.of_seriesRefs (a.buffer_seriesRefs x)
    rw [apply]
    split
    · exact hbuffer.update x.ref fun _ => ⟨rfl, rfl⟩
    · exact hbuffer
  | refuse ref => exact hs.update ref fun _ => ⟨rfl, rfl⟩
  | preset ref created last lastFloat =>
    exact hs.update ref fun s =>
      ⟨s.presetLast_lset created last lastFloat, s.presetLast_chunks created last lastFloat⟩
  | note a' => exact hs.of_seriesRefs he.seriesRefs

namespace AppendEvent

/-- The series that an event marks as pending, besides new ones. -/
def markedRef : AppendEvent → Option ℕ
  | accept x => if x.v.marks then some x.ref else none
  | refuse ref => some ref
  | _ => none

lemma mem_marked_iff (es : List AppendEvent) (ref : ℕ) :
    ref ∈ es.filterMap markedRef ↔
      (∃ x ∈ accepted es, x.v.marks = true ∧ x.ref = ref) ∨ ref ∈ refused es := by
  induction es with
  | nil => simp [accepted, refused]
  | cons e es ih =>
    cases e with
    | accept x =>
      have hacc : accepted (.accept x :: es) = x :: accepted es := rfl
      have href : refused (.accept x :: es) = refused es := rfl
      simp only [hacc, href, mem_cons, exists_eq_or_imp, or_assoc, ← ih, filterMap_cons, markedRef]
      cases x.v.marks
      · simp
      · simp [eq_comm]
    | refuse r =>
      have href : refused (.refuse r :: es) = r :: refused es := rfl
      have hacc : accepted (.refuse r :: es) = accepted es := rfl
      rw [hacc, href, mem_cons, ← or_assoc, or_right_comm, ← ih]
      simp [markedRef, or_comm]
    | create lset => exact ih
    | skipID => exact ih
    | preset r created last lastFloat => exact ih
    | note a => exact ih

/-- An event marks new series, and those that it says. -/
lemma pendingCommit_apply (hle : ∀ ref ∈ s.2.series, ref ≤ s.2.lastSeriesID) (e : AppendEvent)
    (href : ref ∈ (apply s e).2.series) :
    ((apply s e).2.mem ref).pendingCommit = true ↔
      ref ∉ s.2.series ∨ (s.2.mem ref).pendingCommit = true ∨ e.markedRef = some ref := by
  obtain ⟨a, h⟩ := s
  -- An event that marks a series, and one that leaves all marks alone.
  have hmark : ∀ r, ref ∈ h.series → (((h.mark r).mem ref).pendingCommit = true ↔
      ref ∉ h.series ∨ (h.mem ref).pendingCommit = true ∨ some r = some ref) := by
    intro r hmem
    by_cases hr : ref = r
    · subst hr
      simp [mark]
    · rw [mark, update_mem_of_ne _ hr]
      simp [hmem, Ne.symm hr]
  have hkeep : ref ∈ h.series → ((h.mem ref).pendingCommit = true ↔
      ref ∉ h.series ∨ (h.mem ref).pendingCommit = true ∨ none = some ref) := by
    intro hmem
    simp [hmem]
  cases e with
  | create lset =>
    rcases mem_append.1 href with hmem | hmem
    · have hne : ref ≠ h.lastSeriesID + 1 := fun heq => absurd (hle ref hmem) (by simp [heq])
      rw [apply, create_mem_of_ne _ hne]
      exact hkeep hmem
    rw [mem_singleton.1 hmem, apply, create_mem_self]
    have hnew : h.lastSeriesID + 1 ∉ h.series := fun hin => absurd (hle _ hin) (by simp)
    simp [HeadSeries.new, hnew]
  | skipID => exact hkeep href
  | accept x =>
    rw [apply] at href ⊢
    rw [markedRef]
    revert href
    cases x.v.marks
    · exact hkeep
    · exact hmark x.ref
  | refuse r => exact hmark r href
  | preset r created last lastFloat =>
    refine Iff.trans ?_ (hkeep href)
    by_cases hr : ref = r
    · rw [hr, apply, update_mem_self, HeadSeries.presetLast]
      split <;> rfl
    · rw [apply, update_mem_of_ne _ hr]
  | note a' => exact hkeep href

end AppendEvent

lemma Runs.pendingCommit (hes : Runs s es s') (hs : Extends h s) (href : ref ∈ s'.2.series) :
    (s'.2.mem ref).pendingCommit = true ↔
      ref ∉ s.2.series ∨ (s.2.mem ref).pendingCommit = true ∨ ref ∈ es.filterMap markedRef := by
  induction hes with
  | nil s => simp [href]
  | @cons s s' e es he hes ih =>
    have hnext := hs.runs (Runs.single he)
    have hmem : ref ∈ (e :: es).filterMap markedRef ↔ e.markedRef = some ref ∨
      ref ∈ es.filterMap markedRef := by
      rw [filterMap_cons]
      cases e.markedRef with
      | none => simp
      | some r => simp [eq_comm]
    rw [ih hnext href, hmem]
    by_cases hin : ref ∈ (apply s e).2.series
    · rw [e.pendingCommit_apply hs.le_lastSeriesID hin]
      simp only [hin, not_true_eq_false, false_or]
      rw [or_assoc, or_assoc]
    · have hout : ref ∉ s.2.series := fun h => hin ((Runs.single he).series_subset h)
      simp [hin, hout]

/-- Marked series are registered. -/
lemma Runs.mem_series_of_marked
    (hes : Runs s es s') (href : ref ∈ es.filterMap markedRef) : ref ∈ s'.2.series := by
  induction hes with
  | nil s => cases href
  | @cons s s' e es he hes ih =>
    obtain ⟨e', he', hmarked⟩ := mem_filterMap.1 href
    rcases mem_cons.1 he' with rfl | he'
    · have hmem : ref ∈ s.2.series := by
        obtain ⟨a, h⟩ := s
        cases e' with
        | accept x =>
          rw [markedRef] at hmarked
          split at hmarked
          · cases hmarked
            exact he.1
          · cases hmarked
        | refuse r =>
          cases hmarked
          exact he
        | create lset => cases hmarked
        | skipID => cases hmarked
        | preset r created last lastFloat => cases hmarked
        | note a' => cases hmarked
      exact ((Runs.single he).append hes).series_subset hmem
    · exact ih (mem_filterMap.2 ⟨e', he', hmarked⟩)

/-! ### What the rollback does -/

namespace HeadAppender

/-- The records of the float histograms, which are still in their buffer when a rollback logs the
new series. -/
def floatHistogramRecords (a : HeadAppender) : List WalRecord :=
  recordOf .floatHistogramSamples (customBuckets false a.floatHistograms) ++
    recordOf .customBucketsFloatHistogramSamples (customBuckets true a.floatHistograms)

attribute [local simp] floatHistogramRecords recordOf

/-- The series that a rollback unmarks. -/
def unmarked (a : HeadAppender) : List ℕ :=
  a.samples.map (·.ref) ++ a.histograms.map (·.ref) ++ a.seriesRefs.map (·.1)

variable (a : HeadAppender)

lemma rollback_eq (logged : ℕ) (h : Head) : (a.rollback logged h).2 = { h with
        wal := h.wal.map
          (· ++ (recordOf .series a.seriesRefs ++ a.floatHistogramRecords).take logged)
        mem := fun ref =>
          if ref ∈ a.unmarked then { h.mem ref with pendingCommit := false } else h.mem ref
        iso := h.iso.closeAppend a.appendID } := by
  have hrecords : logRecords
    { a with samples := [], exemplars := [], histograms := [], metadata := [] } =
      recordOf .series a.seriesRefs ++ a.floatHistogramRecords := by
    simp [logRecords, customBuckets]
  -- The log does not depend on the marks, so all series can be unmarked after it.
  have hlog : ∀ refs, ((unmark refs h).log logged
      (recordOf .series a.seriesRefs ++ a.floatHistogramRecords)).2 = unmark refs (h.log logged
        (recordOf .series a.seriesRefs ++ a.floatHistogramRecords)).2 := by
    intro refs
    rw [log_snd, log_snd, unmark_eq, unmark_eq]
  have hall : (a.rollback logged h).2 = a.closeAppend (unmark a.unmarked (h.log logged
      (recordOf .series a.seriesRefs ++ a.floatHistogramRecords)).2) := by
    rw [rollback, hrecords, ← unmark_append, unmarked, unmark_append _ (a.seriesRefs.map (·.1)),
      ← hlog]
    rfl
  rw [hall, log_snd, unmark_eq, closeAppend]

lemma floatHistogramRecords_eq_nil_iff : a.floatHistogramRecords = [] ↔ a.floatHistograms = [] := by
  constructor
  · intro hnil
    rw [floatHistogramRecords, append_eq_nil_iff] at hnil
    have hempty : ∀ custom, customBuckets custom a.floatHistograms = [] := by
      rintro (_ | _)
      · by_contra hne
        exact absurd hnil.1 (by simp [hne])
      · by_contra hne
        exact absurd hnil.2 (by simp [hne])
    refine eq_nil_iff_forall_not_mem.2 fun x hx => ?_
    have hin : x ∈ customBuckets x.v.usesCustomBuckets a.floatHistograms := by
      simp [customBuckets, hx]
    rw [hempty] at hin
    cases hin
  · intro hnil
    simp [customBuckets, hnil]

lemma ne_series_of_mem_floatHistogramRecords {a : HeadAppender} {rec : WalRecord}
    (hrec : rec ∈ a.floatHistogramRecords) (refs : List (ℕ × List Label)) : rec ≠ .series refs := by
  rintro rfl
  simp at hrec

lemma eq_seriesRefs_of_mem {refs : List (ℕ × List Label)}
    (hmem : .series refs ∈ recordOf .series a.seriesRefs ++ a.floatHistogramRecords) :
    refs = a.seriesRefs := by
  rcases mem_append.1 hmem with hmem | hmem
  · rw [recordOf] at hmem
    split at hmem
    · cases hmem
    · exact WalRecord.series.inj (mem_singleton.1 hmem)
  · exact absurd rfl (ne_series_of_mem_floatHistogramRecords hmem refs)

/-- Among the records that a rollback logs there are only series records if and only if it does not
come to the float histograms. -/
lemma rollback_records_iff (logged : ℕ) :
    (∀ rec ∈ (recordOf .series a.seriesRefs ++ a.floatHistogramRecords).take logged,
      ∃ refs, rec = .series refs) ↔
      logged ≤ (if a.seriesRefs = [] then 0 else 1) ∨ a.floatHistograms = [] := by
  have hlength : (recordOf WalRecord.series a.seriesRefs).length =
      if a.seriesRefs = [] then 0 else 1 := by
    rw [recordOf]
    split <;> rfl
  have hseries : ∀ rec ∈ recordOf .series a.seriesRefs, ∃ refs, rec = WalRecord.series refs := by
    intro rec hrec
    rw [recordOf] at hrec
    split at hrec
    · cases hrec
    · exact ⟨_, mem_singleton.1 hrec⟩
  rw [← hlength, ← a.floatHistogramRecords_eq_nil_iff]
  constructor
  · intro hall
    by_contra! hboth
    obtain ⟨rec, rest, hrest⟩ := exists_cons_of_ne_nil hboth.2
    have hmem : rec ∈ (recordOf .series a.seriesRefs ++ a.floatHistogramRecords).take logged := by
      obtain ⟨k, hk⟩ := Nat.exists_eq_add_of_lt hboth.1
      rw [hk, hrest, Nat.add_assoc, take_length_add_append, take_succ_cons]
      simp
    obtain ⟨refs, hrefs⟩ := hall rec hmem
    exact ne_series_of_mem_floatHistogramRecords (hrest ▸ mem_cons_self) refs hrefs
  · rintro (hle | hnil) rec hrec
    · rw [take_append_of_le_length hle] at hrec
      exact hseries rec (mem_of_mem_take hrec)
    · rw [hnil, append_nil] at hrec
      exact hseries rec (mem_of_mem_take hrec)

end HeadAppender

lemma Isolation.not_mem_closeAppend (i : Isolation) (appendID : ℕ)
    (henabled : (i.closeAppend appendID).disabled = false) :
    appendID ∉ (i.closeAppend appendID).appendsOpen := by
  rw [Isolation.closeAppend] at henabled ⊢
  split at henabled
  case isTrue hdisabled => exact absurd henabled (by simp [hdisabled])
  case isFalse hdisabled =>
    rw [if_neg hdisabled]
    split
    case h_1 hnone => exact AList.lookup_eq_none.1 hnone
    case h_2 => simp [AList.mem_erase]

variable {a : HeadAppender}

/-- The rollback of an appender is clean if and only if it does not log float histograms, and
unmarks all series that are marked. -/
lemma clean_rollback_iff {r : AppendRun} (happ : r.app = some a)
    (hext : Extends h (a, r.head)) (logged : ℕ) :
    Clean h r (a.rollback logged r.head).2 ↔
      (h.wal = none ∨ logged ≤ (if a.seriesRefs = [] then 0 else 1) ∨ a.floatHistograms = []) ∧
        ∀ ref ∈ r.head.series, (r.head.mem ref).pendingCommit = true → ref ∈ a.unmarked := by
  have hwal : r.head.wal = h.wal := hext.wal
  rw [a.rollback_eq]
  constructor
  · intro hclean
    refine ⟨?_, ?_⟩
    · obtain ⟨records, hrecords, hall⟩ := hclean.wal
      cases hw : h.wal with
      | none => exact .inl rfl
      | some wal =>
        rw [hwal, hw] at hrecords
        have heq := append_cancel_left (Option.some.inj hrecords)
        refine .inr ((a.rollback_records_iff logged).1 fun rec hrec => ?_)
        rw [heq] at hrec
        obtain ⟨refs, hrefs, -⟩ := hall rec hrec
        exact ⟨refs, hrefs⟩
    · intro ref href hmarked
      have hoff := hclean.pendingCommit ref href
      by_contra hnot
      dsimp only at hoff
      rw [if_neg hnot, hmarked] at hoff
      cases hoff
  · rintro ⟨hlogged, hunmarked⟩
    have hkept : ∀ ref, (if ref ∈ a.unmarked then { r.head.mem ref with pendingCommit := false }
        else r.head.mem ref).lset = (r.head.mem ref).lset ∧
        (if ref ∈ a.unmarked then { r.head.mem ref with pendingCommit := false }
          else r.head.mem ref).chunks = (r.head.mem ref).chunks := by
      intro ref
      split <;> exact ⟨rfl, rfl⟩
    refine ⟨?_, ?_, ?_, ?_⟩
    · cases hw : h.wal with
      | none => exact ⟨[], by rw [hwal, hw]; rfl, by simp⟩
      | some wal =>
        refine ⟨_, by rw [hwal, hw], fun rec hrec => ?_⟩
        have hor := hlogged.resolve_left (by simp [hw])
        obtain ⟨refs, rfl⟩ := (a.rollback_records_iff logged).2 hor rec hrec
        refine ⟨refs, rfl, fun x hx => ?_⟩
        rw [a.eq_seriesRefs_of_mem (mem_of_mem_take hrec)] at hx
        obtain ⟨hnew, hlset⟩ := hext.created x hx
        have hmem : x.1 ∈ r.head.series :=
          (hext.mem_series _).2 (.inr (mem_map_of_mem hx))
        exact ⟨hmem, hnew, (hkept x.1).1.trans hlset⟩
    · intro ref href
      exact (hkept ref).2.trans (hext.chunks ref href)
    · intro ref href
      dsimp only
      split
      case isTrue => rfl
      case isFalse hnot =>
        exact Bool.eq_false_iff.2 fun hmarked => hnot (hunmarked ref href hmarked)
    · intro a' ha' henabled
      obtain rfl : a = a' := Option.some.inj (happ.symm.trans ha')
      exact Isolation.not_mem_closeAppend _ _ henabled

/-- What lets a rollback be clean: no float histogram is logged, and every series that stays marked
as pending, because an integer histogram was refused or a float histogram accepted, is unmarked for
another reason. -/
structure Forgets (h : Head) (pick : Option ℕ) (calls : List AppendCall) (logged : ℕ) : Prop where
  /-- Without a log, if the log fails before the float histograms, or if there are none. -/
  logs : h.wal = none ∨
    logged ≤ (if (h.appendRun pick calls).head.series = h.series then 0 else 1) ∨
    ∀ x ∈ (h.appendRun pick calls).accepted, x.v.kind ≠ 2
  /-- The series is new, or it has floats or histograms that are forgotten. -/
  unmarks : ∀ ref,
    (ref ∈ h.refusals pick calls ∨
      ∃ x ∈ (h.appendRun pick calls).accepted, x.ref = ref ∧ x.v.kind = 2) →
    ref ∉ h.series ∨ ∃ x ∈ (h.appendRun pick calls).accepted, x.ref = ref ∧ x.v.kind < 2

/-- A commit that cannot log anything is a rollback. -/
lemma AppendRun.commit_eq_rollback {r : AppendRun} {logged : ℕ}
    (hfail : (r.commit 0 logged).1 = false) : (r.commit 0 logged).2 = (r.rollback logged).2 := by
  rw [AppendRun.commit] at hfail ⊢
  rw [AppendRun.rollback]
  cases happ : r.app with
  | none => rfl
  | some a =>
    simp only [happ, HeadAppender.commit] at hfail ⊢
    have hlog := HeadAppender.log_snd r.head 0 a.logRecords
    have hsame : ({ r.head with wal := r.head.wal.map (· ++ a.logRecords.take 0) } : Head) =
      r.head := by
      simp
    rw [hsame] at hlog
    cases hres : r.head.log 0 a.logRecords with
    | mk ok h' =>
      rw [hres] at hfail hlog
      cases ok with
      | false => exact congrArg (fun h => (a.rollback logged h).2) hlog
      | true => cases hfail

variable {xs : List (RefValue SampleValue)} (hkinds : ∀ k, a.ofKind k = xs.filter (·.v.kind = k))
include hkinds

/-- The buffers in terms of the accepted samples. -/
lemma HeadAppender.floatHistograms_eq_nil_iff :
    a.floatHistograms = [] ↔ ∀ x ∈ xs, x.v.kind ≠ 2 := by
  have htwo : a.floatHistograms = [] ↔ a.ofKind 2 = [] := map_eq_nil_iff.symm
  rw [htwo, hkinds 2, filter_eq_nil_iff]
  simp

lemma HeadAppender.mem_unmarked_iff (ref : ℕ) :
    ref ∈ a.unmarked ↔ (∃ x ∈ xs, x.ref = ref ∧ x.v.kind < 2) ∨ ref ∈ a.seriesRefs.map (·.1) := by
  have hsamples : a.samples.map (·.ref) = (xs.filter (·.v.kind = 0)).map (·.ref) := by
    rw [← hkinds 0, ofKind, map_map]
    rfl
  have hhistograms : a.histograms.map (·.ref) = (xs.filter (·.v.kind = 1)).map (·.ref) := by
    rw [← hkinds 1, ofKind, map_map]
    rfl
  have hlt : ∀ x : RefValue SampleValue, x.v.kind < 2 ↔ x.v.kind = 0 ∨ x.v.kind = 1 := by
    intro x
    omega
  rw [unmarked, hsamples, hhistograms]
  simp only [mem_append, mem_map, mem_filter, decide_eq_true_eq, hlt]
  refine or_congr_left ⟨?_, ?_⟩
  · rintro (⟨x, ⟨hx, hkind⟩, hr⟩ | ⟨x, ⟨hx, hkind⟩, hr⟩)
    · exact ⟨x, hx, hr, .inl hkind⟩
    · exact ⟨x, hx, hr, .inr hkind⟩
  rintro ⟨x, hx, hr, hkind | hkind⟩
  · exact .inl ⟨x, ⟨hx, hkind⟩, hr⟩
  · exact .inr ⟨x, ⟨hx, hkind⟩, hr⟩

omit hkinds

lemma SampleValue.marks_iff (v : SampleValue) : v.marks = true ↔ v.kind = 0 ∨ v.kind = 2 := by
  cases v <;> simp [marks, kind]

/-- The rollback of an appender that has started. -/
lemma clean_rollback_iff_forgets {h₁ : Head} (hrefs : ∀ ref ∈ h.series, ref ≤ h.lastSeriesID)
    (hpending : ∀ ref ∈ h.series, (h.mem ref).pendingCommit = false) {pick : Option ℕ}
    {calls : List AppendCall} (hstart : h.Started h₁) (happ : (h.appendRun pick calls).app = some a)
    (hes : Runs (h₁.appender pick) es (a, (h.appendRun pick calls).head))
    (hacc : accepted es = (h.appendRun pick calls).accepted)
    (href : refused es = h.refusals pick calls) (logged : ℕ) :
    Clean h (h.appendRun pick calls) (a.rollback logged (h.appendRun pick calls).head).2 ↔
      Forgets h pick calls logged := by
  obtain ⟨-, -, hseries, hmem⟩ := hstart.same
  have hseries₀ : (h₁.appender pick).2.series = h.series := hseries
  have hmem₀ : (h₁.appender pick).2.mem = h.mem := hmem
  have hext₀ := hstart.extends hrefs pick
  have hext := hext₀.runs hes
  have hkinds : ∀ k, a.ofKind k = (h.appendRun pick calls).accepted.filter (·.v.kind = k) := by
    rw [← hacc]
    exact hes.ofKind_appender
  have hnew : a.seriesRefs = [] ↔ (h.appendRun pick calls).head.series = h.series := by
    rw [hext.series, append_right_eq_self, map_eq_nil_iff]
  rw [clean_rollback_iff happ hext, floatHistograms_eq_nil_iff hkinds]
  simp only [hnew, mem_unmarked_iff hkinds]
  have hmarked : ∀ ref ∈ (h.appendRun pick calls).head.series,
      (((h.appendRun pick calls).head.mem ref).pendingCommit = true ↔
        ref ∉ h.series ∨ ref ∈ es.filterMap markedRef) := by
    intro ref href
    rw [hes.pendingCommit hext₀ href, hseries₀, hmem₀]
    by_cases hold : ref ∈ h.series
    · simp [hpending ref hold]
    · simp [hold]
  have hcauses : ∀ ref, ref ∈ es.filterMap markedRef ↔
      (∃ x ∈ (h.appendRun pick calls).accepted, (x.v.kind = 0 ∨ x.v.kind = 2) ∧ x.ref = ref) ∨
        ref ∈ h.refusals pick calls := by
    intro ref
    simp only [mem_marked_iff, hacc, href, SampleValue.marks_iff]
  constructor
  · rintro ⟨hlogs, hunmarks⟩
    refine ⟨hlogs, fun ref hcause => ?_⟩
    have hin : ref ∈ es.filterMap markedRef := by
      rcases hcause with hrefused | ⟨x, hx, hr, hkind⟩
      · exact (hcauses ref).2 (.inr hrefused)
      · exact (hcauses ref).2 (.inl ⟨x, hx, .inr hkind, hr⟩)
    have hmem := hes.mem_series_of_marked hin
    rcases hunmarks ref hmem ((hmarked ref hmem).2 (.inr hin)) with hother | hnew
    · exact .inr hother
    · obtain ⟨x, hx, rfl⟩ := mem_map.1 hnew
      exact .inl (hext.created x hx).1
  · rintro ⟨hlogs, hunmarks⟩
    refine ⟨hlogs, fun ref href hp => ?_⟩
    have hnewRef : ref ∉ h.series → ref ∈ a.seriesRefs.map (·.1) :=
      ((hext.mem_series ref).1 href).resolve_left
    rcases (hmarked ref href).1 hp with hnot | hin
    · exact .inr (hnewRef hnot)
    rcases (hcauses ref).1 hin with ⟨x, hx, hkind | hkind, hr⟩ | hrefused
    · exact .inl ⟨x, hx, hr, by omega⟩
    · exact (hunmarks ref (.inr ⟨x, hx, hr, hkind⟩)).symm.imp_right hnewRef
    · exact (hunmarks ref (.inl hrefused)).symm.imp_right hnewRef

/-- Let an appender do any calls on a head in which no series is pending, and roll back, or commit
and fail to log. This is clean if and only if it logs no float histogram and every series that is
marked for a refused integer histogram or for a float histogram is unmarked for another reason. -/
theorem rollback_clean_iff (h : Head) (hrefs : ∀ ref ∈ h.series, ref ≤ h.lastSeriesID)
    (hpending : ∀ ref ∈ h.series, (h.mem ref).pendingCommit = false) (pick : Option ℕ)
    (calls : List AppendCall) (logged : ℕ) :
    let r := h.appendRun pick calls
    (Clean h r (r.rollback logged).2 ↔ Forgets h pick calls logged) ∧
      ((r.commit 0 logged).1 = false →
        (Clean h r (r.commit 0 logged).2 ↔ Forgets h pick calls logged)) := by
  intro r
  suffices hmain : Clean h r (r.rollback logged).2 ↔ Forgets h pick calls logged from
    ⟨hmain, fun hfail => by rw [AppendRun.commit_eq_rollback hfail]; exact hmain⟩
  rcases appendRun_since h pick calls with
    ⟨happ, hhead, hacc, href⟩ | ⟨h₁, a, es, hstart, happ, hes, hacc, href⟩
  · -- No call has needed an appender, so there is nothing to forget.
    have hacc : r.accepted = [] := hacc
    have hforgets : Forgets h pick calls logged := by
      refine ⟨.inr (.inr ?_), ?_⟩
      · rw [hacc]
        simp
      · rw [hacc, href]
        simp
    have happ : r.app = none := happ
    have hrollback : (r.rollback logged).2 = h := by
      rw [AppendRun.rollback, happ]
      exact hhead
    rw [hrollback]
    refine iff_of_true ⟨⟨[], ?_, by simp⟩, ?_, hpending, ?_⟩ hforgets
    · simp
    · intro ref href
      rw [if_pos href]
    intro a ha
    rw [happ] at ha
    cases ha
  · have happ' : r.app = some a := happ
    rw [AppendRun.rollback, happ']
    exact clean_rollback_iff_forgets hrefs hpending hstart happ hes hacc href logged

/-- A float histogram is rolled back, but it is logged. -/
theorem rollback_logs_floatHistogram :
    let lset : List Label := [⟨[97], [98]⟩]
    let fh := histogramWithSum 0
    let r := Head.example.appendRun none [.appendHistogram 0 lset 1 none (some fh)]
    (r.rollback 9).2.wal = some [.series [(1, lset)], .floatHistogramSamples [⟨1, 1, fh⟩]] ∧
      ¬ Clean Head.example r (r.rollback 9).2 := by
  intro lset fh r
  have hwal : (r.rollback 9).2.wal =
      some [.series [(1, lset)], .floatHistogramSamples [⟨1, 1, fh⟩]] := by decide +kernel
  refine ⟨hwal, fun hclean => ?_⟩
  obtain ⟨records, hrecords, hall⟩ := hclean.wal
  rw [hwal] at hrecords
  have heq : records = [.series [(1, lset)], .floatHistogramSamples [⟨1, 1, fh⟩]] :=
    (Option.some.inj hrecords).symm
  obtain ⟨refs, hrefs, -⟩ := hall (.floatHistogramSamples [⟨1, 1, fh⟩]) (by rw [heq]; simp)
  cases hrefs

/-- A float and a histogram are rolled back. -/
theorem rollback_clean_float_and_histogram :
    let lset : List Label := [⟨[97], [98]⟩]
    let hist := histogramWithSum 0
    let r := Head.example.appendRun none
      [.append 0 lset 1 5, .appendHistogram 0 lset 2 (some hist) none]
    r.accepted = [⟨1, 1, .float 5⟩, ⟨1, 2, .histogram hist⟩] ∧
      Clean Head.example r (r.rollback 9).2 := by
  intro lset hist
  set r := Head.example.appendRun none
    [.append 0 lset 1 5, .appendHistogram 0 lset 2 (some hist) none] with hr
  have hacc : r.accepted = [⟨1, 1, .float 5⟩, ⟨1, 2, .histogram hist⟩] := by decide +kernel
  have hnone : ∀ ref, ref ∉ Head.example.series := fun _ => not_mem_nil
  have hiff := rollback_clean_iff Head.example (fun ref href => absurd href (hnone ref))
    (fun ref href => absurd href (hnone ref)) none
    [.append 0 lset 1 5, .appendHistogram 0 lset 2 (some hist) none] 9
  rw [← hr] at hiff
  refine ⟨hacc, hiff.1.2 ⟨.inr (.inr ?_), ?_⟩⟩
  · rw [← hr, hacc]
    decide
  · intro ref _
    exact .inl (hnone ref)

end Prometheus.Tsdb
