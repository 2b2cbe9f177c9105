import Prometheus.Tsdb.AppenderMoves
import Prometheus.Tsdb.ReplaySteps
import Prometheus.Tsdb.Rollback

/-!
# Appenders one after the other

`Head.commitAppender` is an appender that does some calls and commits, while no other appender is
open and the log takes everything. `commitAppender_spec` says what it leaves: which series there
are, what was logged, and which samples the series have gained.
-/

namespace Prometheus.Tsdb

open GoInt Record AppendEvent List Head

/-- An appender that does some calls and commits. It logs at most eight records, and the log takes
all of them. -/
def Head.commitAppender (h : Head) (pick : Option ℕ) (calls : List AppendCall) : Head :=
  ((h.appendRun pick calls).commit 8 0).2

/-- No two series have the same ref, or the same labels. -/
structure Head.Distinct (h : Head) : Prop where
  refs : h.series.Nodup
  labels : (h.registered.map (·.2)).Nodup

/-- What appenders do not change. -/
structure Head.SameSettings (h h' : Head) : Prop where
  opts : h'.opts = h.opts
  chunkRange : h'.chunkRange = h.chunkRange
  minValidTime : h'.minValidTime = h.minValidTime

lemma Head.SameSettings.trans {h h' h'' : Head} (hs : h.SameSettings h')
    (hs' : h'.SameSettings h'') : h.SameSettings h'' :=
  ⟨hs'.opts.trans hs.opts, hs'.chunkRange.trans hs.chunkRange,
    hs'.minValidTime.trans hs.minValidTime⟩

lemma Head.SameSettings.update (h : Head) (ref : ℕ) (f : HeadSeries → HeadSeries) :
    h.SameSettings (h.update ref f) :=
  ⟨rfl, rfl, rfl⟩

/-! ### The calls -/

/-- The new series of an appender come last, and are distinct from all others. -/
structure Registers (h : Head) (s : HeadAppender × Head) : Prop where
  registered : s.2.registered = h.registered ++ s.1.seriesRefs
  distinct : s.2.Distinct
  settings : h.SameSettings s.2

namespace Registers

variable {h h' : Head} {a a' : HeadAppender}

variable (hs : Registers h (a, h'))
include hs

lemma update (ref : ℕ) {f : HeadSeries → HeadSeries}
    (hf : ∀ s, (f s).lset = s.lset) : Registers h (a, h'.update ref f) := by
  have hreg : (h'.update ref f).registered = h'.registered := h'.registered_update ref hf
  refine ⟨hreg.trans hs.registered, ⟨hs.distinct.refs, ?_⟩, hs.settings.trans (.update h' ref f)⟩
  rw [hreg]
  exact hs.distinct.labels

lemma of_seriesRefs (heq : a'.seriesRefs = a.seriesRefs) : Registers h (a', h') := by
  refine ⟨?_, hs.distinct, hs.settings⟩
  rw [heq]
  exact hs.registered

lemma create (hle : ∀ ref ∈ h'.series, ref ≤ h'.lastSeriesID)
    {lset : List Label} (hnone : h'.getByHash lset = none) :
    Registers h (apply (a, h') (.create lset)) := by
  have hnew : h'.lastSeriesID + 1 ∉ h'.series := fun hmem => absurd (hle _ hmem) (by omega)
  have hreg : (h'.create lset).registered = h'.registered ++ [(h'.lastSeriesID + 1, lset)] :=
    registered_create hnew lset true (h'.lastSeriesID + 1)
  have hlabels : lset ∉ h'.registered.map (·.2) := getByHash_eq_none_iff.1 hnone
  refine ⟨?_, ⟨?_, ?_⟩, hs.settings.trans ⟨rfl, rfl, rfl⟩⟩
  · rw [apply, hreg, ← append_assoc]
    exact congrArg (· ++ _) hs.registered
  · exact nodup_append.2 ⟨hs.distinct.refs, nodup_singleton _, by
      rintro x hx y hy rfl
      exact hnew (mem_singleton.1 hy ▸ hx)⟩
  rw [apply, hreg, map_append]
  exact nodup_append.2 ⟨hs.distinct.labels, nodup_singleton _, by
    rintro x hx y hy rfl
    rw [mem_singleton.1 hy] at hx
    exact hlabels hx⟩

omit hs

lemma runs {s s' : HeadAppender × Head} {es : List AppendEvent} (hs : Registers h s)
    (hext : Extends h s) (hes : Runs s es s') : Registers h s' := by
  refine (hes.induction (P := fun s => Registers h s ∧ Extends h s) ?_ ⟨hs, hext⟩).1
  rintro ⟨a, h'⟩ e ⟨hs, hext⟩ he
  refine ⟨?_, hext.runs (.single he)⟩
  cases e with
  | create lset => exact hs.create hext.le_lastSeriesID he
  | skipID => exact ⟨hs.registered, ⟨hs.distinct.refs, hs.distinct.labels⟩,
      hs.settings.trans ⟨rfl, rfl, rfl⟩⟩
  | accept x =>
    have hbuffer := hs.of_seriesRefs (a.buffer_seriesRefs x)
    rw [apply]
    split
    · exact hbuffer.update x.ref fun _ => rfl
    · exact hbuffer
  | refuse ref => exact hs.update ref fun _ => rfl
  | preset ref created last lastFloat =>
    exact hs.update ref fun s =>
      s.presetLast_lset created last lastFloat
  | note a' => exact hs.of_seriesRefs he.seriesRefs

end Registers

lemma Head.Started.settings {h h₁ : Head} (hstart : h.Started h₁) : h.SameSettings h₁ := by
  rcases hstart with rfl | ⟨t, rfl⟩
  · exact ⟨rfl, rfl, rfl⟩
  · rw [initTime]
    split <;> exact ⟨rfl, rfl, rfl⟩

lemma Head.Started.registers {h h₁ : Head} (hstart : h.Started h₁) (hdistinct : h.Distinct)
    (pick : Option ℕ) : Registers h (h₁.appender pick) := by
  obtain ⟨-, -, hseries, hmem⟩ := hstart.same
  have hreg : (h₁.appender pick).2.registered = h.registered := by
    rw [registered, registered]
    show h₁.series.map (fun ref => (ref, (h₁.mem ref).lset)) = _
    rw [hseries, hmem]
  refine ⟨hreg.trans (append_nil _).symm, ⟨?_, ?_⟩, hstart.settings.trans ⟨rfl, rfl, rfl⟩⟩
  · show h₁.series.Nodup
    rw [hseries]
    exact hdistinct.refs
  · rw [hreg]
    exact hdistinct.labels

/-! ### The commit -/

namespace HeadAppender

lemma length_recordOf_le {α : Type} (record : List α → WalRecord) (xs : List α) :
    (recordOf record xs).length ≤ 1 := by
  rw [recordOf]
  split <;> simp

variable (a : HeadAppender) (h : Head)

lemma length_logRecords_le : a.logRecords.length ≤ 8 := by
  simp only [logRecords, length_append]
  show _ ≤ 1 + 1 + 1 + 1 + 1 + 1 + 1 + 1
  repeat' apply Nat.add_le_add
  all_goals exact length_recordOf_le _ _

lemma commit_all :
    (a.commit 8 0 h).2 = a.commitLogged { h with wal := h.wal.map (· ++ a.logRecords) } := by
  have htake : a.logRecords.take 8 = a.logRecords := take_of_length_le a.length_logRecords_le
  have hsnd := log_snd h 8 a.logRecords
  have hok : (h.log 8 a.logRecords).1 = true := by
    rw [log]
    split
    · rfl
    · exact decide_eq_true a.length_logRecords_le
  rw [commit]
  split
  next h' heq =>
    rw [heq] at hok
    cases hok
  next h' heq =>
    rw [heq] at hsnd
    dsimp only at hsnd ⊢
    rw [hsnd, htake]

lemma foldl_commitTurn_frame (xs : List (RefValue SampleValue))
    (acc : CommitContext) :
    acc.head.Same (xs.foldl (a.commitTurn id) acc).head ∧
      acc.head.SameSettings (xs.foldl (a.commitTurn id) acc).head := by
  induction xs generalizing acc with
  | nil => exact ⟨.refl _, rfl, rfl, rfl⟩
  | cons x xs ih =>
    obtain ⟨hsame, hsettings⟩ := ih (a.commitTurn id acc x)
    have hturn : acc.head.SameSettings (a.commitTurn id acc x).head := ⟨rfl, rfl, rfl⟩
    exact ⟨(a.same_commitTurn acc x).trans hsame, hturn.trans hsettings⟩

lemma commitMetadata_frame : h.Same (a.commitMetadata h) ∧ h.SameSettings (a.commitMetadata h) := by
  rw [commitMetadata]
  generalize a.metadata = ms
  induction ms generalizing h with
  | nil => exact ⟨.refl _, rfl, rfl, rfl⟩
  | cons m ms ih =>
    obtain ⟨hsame, hsettings⟩ := ih (h.update m.1 fun s => { s with metadata := some m.2 })
    exact ⟨(Same.update h m.1 _ rfl).trans hsame, (SameSettings.update ..).trans hsettings⟩

lemma unmark_frame (refs : List ℕ) (h : Head) :
    h.Same (unmark refs h) ∧ h.SameSettings (unmark refs h) := by
  rw [unmark_eq]
  refine ⟨⟨rfl, rfl, le_rfl, fun ref => ?_⟩, rfl, rfl, rfl⟩
  dsimp only
  split <;> rfl

/-- A commit changes series, but registers none. -/
lemma commitLogged_frame : h.Same (a.commitLogged h) ∧ h.SameSettings (a.commitLogged h) := by
  obtain ⟨hloops, hloops'⟩ := a.foldl_commitTurn_frame a.commitOrder ⟨h, Head.maxInt64, minInt64⟩
  rw [← commit_loops] at hloops hloops'
  obtain ⟨hmeta, hmeta'⟩ := a.commitMetadata_frame (a.commitFloatHistograms (a.commitHistograms
    (a.commitSamples ⟨h, Head.maxInt64, minInt64⟩))).head
  obtain ⟨hunmark, hunmark'⟩ := unmark_frame (a.seriesRefs.map (·.1)) (a.commitMetadata
    (a.commitFloatHistograms (a.commitHistograms
      (a.commitSamples ⟨h, Head.maxInt64, minInt64⟩))).head)
  have hsame := (hloops.trans hmeta).trans hunmark
  have hsettings := (hloops'.trans hmeta').trans hunmark'
  exact ⟨⟨hsame.wal, hsame.series, hsame.lastSeriesID, hsame.lset⟩,
    hsettings.opts, hsettings.chunkRange, hsettings.minValidTime⟩

end HeadAppender

lemma Head.Same.registered {h h' : Head} (hs : h.Same h') : h'.registered = h.registered := by
  rw [Head.registered, Head.registered, hs.series]
  exact map_congr_left fun ref _ => by rw [hs.lset]

/-- What an appender leaves that has done some calls and has committed. -/
structure Committed (h : Head) (r : AppendRun) (a : HeadAppender) (h' : Head) : Prop where
  kinds : ∀ k, a.ofKind k = r.accepted.filter (·.v.kind = k)
  accepted : ∀ x ∈ r.accepted, x.ref ∈ h'.series ∧ h.minValidTime ≤ x.t
  wal : h'.wal = h.wal.map (· ++ a.logRecords)
  registered : h'.registered = h.registered ++ a.seriesRefs
  distinct : h'.Distinct
  settings : h.SameSettings h'
  wf : h'.WF
  /-- The chunks before the commit. -/
  chunks : ∀ ref ∈ h'.series,
    (r.head.mem ref).chunks = if ref ∈ h.series then (h.mem ref).chunks else .new ref
  samples : ∀ ref ∈ h'.series, (h'.mem ref).samples = (r.head.mem ref).samples ++
    later (r.head.mem ref).maxTime (HeadAppender.samplesOf ref a.commitOrder)
  maxTime : ∀ ref ∈ h'.series, (h'.mem ref).maxTime =
    lastTime (r.head.mem ref).maxTime (HeadAppender.samplesOf ref a.commitOrder)

namespace HeadAppender

lemma commitValues_maxTime {a : HeadAppender} {s : HeadSeries} (hs : s.WF)
    (hooo : a.oooTimeWindow = 0) (opts : HeadOptions) {xs : List (ℤ × SampleValue)}
    (hxs : ∀ x ∈ xs, a.minValidTime ≤ x.1) :
    (a.commitValues opts xs s).maxTime = lastTime s.maxTime xs := by
  induction xs generalizing s with
  | nil => rfl
  | cons x xs ih =>
    obtain ⟨-, hwf, -, hmax⟩ := commitValue_spec hs hooo opts (hxs x mem_cons_self) x.2
    rw [lastTime_cons, ← hmax]
    exact ih hwf fun y hy => hxs y (mem_cons_of_mem x hy)

end HeadAppender

lemma Head.le_appendableMinValidTime (h : Head) : h.minValidTime ≤ h.appendableMinValidTime :=
  le_max_right _ _

/-- An appender without out-of-order ingestion, from its start to its commit. -/
theorem Head.commitAppender_spec {h : Head} (hwf : h.WF) (hdistinct : h.Distinct)
    (hooo : h.opts.outOfOrderTimeWindow = 0) (pick : Option ℕ) (calls : List AppendCall) :
    (h.commitAppender pick calls = h ∧ (h.appendRun pick calls).accepted = []) ∨
      ∃ a, Committed h (h.appendRun pick calls) a (h.commitAppender pick calls) := by
  rcases appendRun_since h pick calls with
    ⟨happ, hhead, hacc, -⟩ | ⟨h₁, a, es, hstart, happ, hes, hacc, -⟩
  · -- No call has needed an appender.
    refine .inl ⟨?_, hacc⟩
    rw [commitAppender, AppendRun.commit, happ]
    exact hhead
  refine .inr ⟨a, ?_⟩
  set r := h.appendRun pick calls with hr
  have hkinds : ∀ k, a.ofKind k = r.accepted.filter (·.v.kind = k) := by
    rw [← hacc]
    exact hes.ofKind_appender
  have hrefs : ∀ ref ∈ h.series, ref ≤ h.lastSeriesID := fun ref href => (hwf ref href).1
  have hext₀ := hstart.extends hrefs pick
  have hext : Extends h (a, r.head) := hext₀.runs hes
  have hreg : Registers h (a, r.head) := (hstart.registers hdistinct pick).runs hext₀ hes
  have hrwf : r.head.WF := hes.wf (hstart.wf hwf)
  have hstartooo : (h₁.appender pick).1.oooTimeWindow = 0 :=
    (congrArg HeadOptions.outOfOrderTimeWindow hstart.opts).trans hooo
  have hzero : a.oooTimeWindow = 0 := hes.conditions.1.trans hstartooo
  have hspec := hes.accepted_spec hstartooo
  rw [hacc] at hspec
  have hmin : h.minValidTime ≤ a.minValidTime := by
    rw [hes.conditions.2, ← hstart.settings.minValidTime]
    exact h₁.le_appendableMinValidTime
  have hcommit : h.commitAppender pick calls =
      a.commitLogged { r.head with wal := r.head.wal.map (· ++ a.logRecords) } := by
    rw [commitAppender, AppendRun.commit, happ]
    exact a.commit_all r.head
  obtain ⟨hsame, hsettings⟩ :=
    a.commitLogged_frame { r.head with wal := r.head.wal.map (· ++ a.logRecords) }
  rw [← hcommit] at hsame hsettings
  have hseries : (h.commitAppender pick calls).series = r.head.series := hsame.series
  have hregistered : (h.commitAppender pick calls).registered =
    r.head.registered := hsame.registered
  have hvalid : ∀ ref, ∀ y ∈ HeadAppender.samplesOf ref a.commitOrder, a.minValidTime ≤ y.1 := by
    intro ref y hy
    obtain ⟨z, hz, rfl⟩ := mem_map.1 hy
    have hz := (mem_filter.1 hz).1
    exact (hspec z ((mem_commitOrder_iff hkinds z).1 hz)).2
  have hchunks : ∀ ref, ((h.commitAppender pick calls).mem ref).chunks =
      (a.commitValues r.head.opts (HeadAppender.samplesOf ref a.commitOrder)
        (r.head.mem ref)).chunks := by
    intro ref
    rw [hcommit]
    exact a.commitLogged_chunks _ ref
  have hvalues := fun ref (href : ref ∈ r.head.series) =>
    HeadAppender.commitValues_spec (hrwf ref href).2 hzero r.head.opts (hvalid ref)
  constructor
  case kinds => exact hkinds
  case accepted =>
    intro x hx
    rw [hseries]
    exact ⟨(hspec x hx).1, hmin.trans (hspec x hx).2⟩
  case wal =>
    rw [hsame.wal]
    exact congrArg (Option.map (· ++ a.logRecords)) hext.wal
  case registered => exact hregistered.trans hreg.registered
  case distinct =>
    refine ⟨hseries ▸ hreg.distinct.refs, ?_⟩
    rw [hregistered]
    exact hreg.distinct.labels
  case settings =>
    exact hreg.settings.trans ⟨hsettings.opts, hsettings.chunkRange, hsettings.minValidTime⟩
  case wf =>
    intro ref href
    rw [hseries] at href
    exact ⟨(hrwf ref href).1.trans hsame.lastSeriesID, (hvalues ref href).1.of_chunks (hchunks ref)⟩
  case chunks =>
    intro ref href
    rw [hseries] at href
    exact hext.chunks ref href
  case samples =>
    intro ref href
    rw [hseries] at href
    rw [HeadSeries.samples, hchunks ref]
    exact (hvalues ref href).2
  case maxTime =>
    intro ref href
    rw [hseries] at href
    rw [HeadSeries.maxTime, hchunks ref]
    exact HeadAppender.commitValues_maxTime (hrwf ref href).2 hzero r.head.opts (hvalid ref)

end Prometheus.Tsdb
