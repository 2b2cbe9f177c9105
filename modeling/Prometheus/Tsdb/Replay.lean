import Prometheus.Tsdb.CommitRuns

/-!
# Recovery after a crash

Appenders commit one after the other, and the log is loaded into a new head. Every series should
then have the samples that it had before. The log has what is needed: every series is logged before
its samples, and all samples are there. But their order is not the one in which they were committed,
since each buffer of histograms is logged in two records, one for exponential and one for custom
buckets. So the samples come back if and only if in no commit a histogram with custom buckets is
overtaken by one with exponential buckets (`replay_recovers_iff`).
-/

namespace Prometheus.Tsdb

open GoInt Record Transition HeadAppender List Head ReplayTask

/-- The replayed head has the same series as the live one, with the same samples. -/
structure Recovers (live replayed : Head) : Prop where
  registered : replayed.registered = live.registered
  samples : ∀ ref ∈ live.series, (replayed.mem ref).samples = (live.mem ref).samples

/-- No histogram with custom buckets is overtaken, among the histograms of its kind and its series,
by one with exponential buckets. Both count only if they are later than the series and all its
samples that are committed before. -/
def AppendRun.KeepsOrder (r : AppendRun) : Prop :=
  ∀ ref k, ¬ Overtaken SampleValue.usesCustomBuckets
    (lastTime (r.head.mem ref).maxTime (samplesOf ref (r.accepted.filter (·.v.kind < k))))
    (samplesOf ref (r.accepted.filter (·.v.kind = k)))

namespace Head

variable (h : Head)

variable (c : Option ℕ × List AppendCall)

/-- The next appender, with its calls. -/
def commitStep : Option Head :=
  some (h.commitAppender c.1 c.2)

/-- The appender is given samples that keep that order. -/
def InLogOrder : Prop :=
  (h.appendRun c.1 c.2).KeepsOrder

/-- The samples in the log, series by series. -/
def loggedSamples (ref : ℕ) : List (ℤ × SampleValue) :=
  samplesOf ref ((h.wal.getD []).flatMap WalRecord.values)

/-- Every series has what loading the log would restore. -/
def Restorable : Prop :=
  ∀ ref ∈ h.series, (h.mem ref).samples = later minInt64 (h.loggedSamples ref)

end Head

/-! ### The log of a sequence of appenders -/

/-- What the log of appenders that commit one after the other is like. -/
structure Logs (h₀ h : Head) : Prop where
  settings : h₀.SameSettings h
  wf : h.WF
  distinct : h.Distinct
  wal : h.wal.isSome
  newSeries : (h.wal.getD []).flatMap WalRecord.newSeries = h.registered
  inSequence : InSequence h₀.minValidTime [] ((h.wal.getD []).flatMap WalRecord.tasks)
  maxTime : ∀ ref ∈ h.series, (h.mem ref).maxTime = lastTime minInt64 (h.loggedSamples ref)

variable {minValidTime : ℤ} {known : List (ℕ × List Label)} {todo : List ReplayTask}

lemma inSequence_series {known xs : List (ℕ × List Label)}
    (hrefs : ((known ++ xs).map (·.1)).Nodup) (hlabels : ((known ++ xs).map (·.2)).Nodup) :
    InSequence minValidTime known (xs.map fun (ref, lset) => .series ref lset) := by
  induction xs generalizing known with
  | nil => trivial
  | cons x xs ih =>
    have hsplit : known ++ x :: xs = (known ++ [x]) ++ xs := by simp
    refine ⟨?_, ?_, ih (by rwa [← hsplit]) (by rwa [← hsplit])⟩
    · rw [map_append, nodup_append] at hrefs
      exact fun hmem => hrefs.2.2 _ hmem _ (by simp) rfl
    · rw [map_append, nodup_append] at hlabels
      exact fun hmem => hlabels.2.2 _ hmem _ (by simp) rfl

lemma inSequence_values (hnew : todo.flatMap newSeries = [])
    (hvalues : ∀ x ∈ todo.flatMap values, x.ref ∈ known.map (·.1) ∧ minValidTime ≤ x.t) :
    InSequence minValidTime known todo := by
  induction todo with
  | nil => trivial
  | cons task todo ih =>
    rw [flatMap_cons, append_eq_nil_iff] at hnew
    rw [flatMap_cons, forall_mem_append] at hvalues
    have hrest := ih hnew.2 hvalues.2
    cases task with
    | series ref lset => cases hnew.1
    | metadata ref m => exact hrest
    | batch samples => exact ⟨hvalues.1, hrest⟩
    | send i items => exact hrest

lemma InSequence.mono {minValidTime minValidTime' : ℤ} (hle : minValidTime' ≤ minValidTime)
    (hseq : InSequence minValidTime known todo) : InSequence minValidTime' known todo := by
  induction todo generalizing known with
  | nil => trivial
  | cons task todo ih =>
    cases task with
    | series ref lset => exact ⟨hseq.1, hseq.2.1, ih hseq.2.2⟩
    | metadata ref m => exact ih hseq
    | batch samples =>
      exact ⟨fun x hx => ⟨(hseq.1 x hx).1, hle.trans (hseq.1 x hx).2⟩, ih hseq.2⟩
    | send i items => exact ih hseq

lemma InSequence.known_of_mem (hseq : InSequence minValidTime known todo) {x : RefValue SampleValue}
    (hx : x ∈ todo.flatMap values) :
    x.ref ∈ (known ++ todo.flatMap newSeries).map (·.1) := by
  induction todo generalizing known with
  | nil => cases hx
  | cons task todo ih =>
    rw [flatMap_cons, mem_append] at hx
    rw [flatMap_cons, ← append_assoc]
    cases task with
    | series ref lset => exact ih hseq.2.2 (hx.resolve_left not_mem_nil)
    | metadata ref m =>
      simp only [newSeries, append_nil]
      exact ih hseq (hx.resolve_left not_mem_nil)
    | batch samples =>
      simp only [newSeries, append_nil]
      rcases hx with hx | hx
      · rw [map_append]
        exact mem_append_left _ (hseq.1 x hx).1
      · exact ih hseq.2 hx
    | send i items =>
      simp only [newSeries, append_nil]
      exact ih hseq (hx.resolve_left not_mem_nil)

/-- The records of an appender: its series, and then the rest. -/
lemma logRecords_eq_cons (a : HeadAppender) :
    ∃ rest, a.logRecords = recordOf .series a.seriesRefs ++ rest ∧
      rest.flatMap WalRecord.newSeries = [] := by
  refine ⟨_, by rw [logRecords, append_assoc, append_assoc, append_assoc,
    append_assoc, append_assoc, append_assoc], ?_⟩
  simp only [flatMap_append]
  repeat rw [flatMap_recordOf _ _ rfl]
  rfl

lemma newSeries_logRecords (a : HeadAppender) :
    a.logRecords.flatMap WalRecord.newSeries = a.seriesRefs := by
  obtain ⟨rest, heq, hrest⟩ := logRecords_eq_cons a
  rw [heq, flatMap_append, hrest, append_nil]
  exact flatMap_recordOf _ _ rfl _

/-- An appender logs its series, and then samples of series that are known. -/
lemma inSequence_logRecords {a : HeadAppender} (hrefs : ((known ++ a.seriesRefs).map (·.1)).Nodup)
    (hlabels : ((known ++ a.seriesRefs).map (·.2)).Nodup)
    (hvalues : ∀ x ∈ a.logOrder, x.ref ∈ (known ++ a.seriesRefs).map (·.1) ∧ minValidTime ≤ x.t) :
    InSequence minValidTime known (a.logRecords.flatMap WalRecord.tasks) := by
  obtain ⟨rest, heq, hrest⟩ := logRecords_eq_cons a
  obtain ⟨hnew, hval, -⟩ := tasks_flatMap rest
  have hseries : (recordOf .series a.seriesRefs).flatMap WalRecord.tasks =
      a.seriesRefs.map fun (ref, lset) => .series ref lset :=
    flatMap_recordOf _ _ rfl _
  have hcreated : (a.seriesRefs.map fun (x : ℕ × List Label) => series x.1 x.2).flatMap
      newSeries = a.seriesRefs := by
    simp [flatMap_map, newSeries]
  rw [heq, flatMap_append, hseries, inSequence_append]
  refine ⟨inSequence_series hrefs hlabels, inSequence_values (hnew.trans hrest) fun x hx => ?_⟩
  rw [hcreated]
  refine hvalues x ?_
  rw [logOrder, heq, flatMap_append, ← hval]
  exact mem_append_right _ hx

section Commit

variable {h₀ h h' : Head} {r : AppendRun} {a : HeadAppender}

section

variable (hs : Logs h₀ h)
include hs

lemma Committed.log (hc : Committed h r a h') :
    h'.wal.isSome ∧ h'.wal.getD [] = h.wal.getD [] ++ a.logRecords := by
  obtain ⟨wal, hwal⟩ := Option.isSome_iff_exists.1 hs.wal
  rw [hc.wal, hwal]
  exact ⟨rfl, rfl⟩

lemma Committed.loggedSamples (hc : Committed h r a h') (ref : ℕ) :
    h'.loggedSamples ref = h.loggedSamples ref ++ samplesOf ref a.logOrder := by
  rw [Head.loggedSamples, (hc.log hs).2, flatMap_append, samplesOf_append]
  rfl

/-- The log has no samples of series that it does not know. -/
lemma Logs.loggedSamples_eq_nil {ref : ℕ} (href : ref ∉ h.series) : h.loggedSamples ref = [] := by
  rw [loggedSamples, samplesOf, map_eq_nil_iff, filter_eq_nil_iff]
  intro x hx heq
  obtain ⟨hnew, hvalues, -⟩ := tasks_flatMap (h.wal.getD [])
  have hmem := hs.inSequence.known_of_mem (hvalues ▸ hx)
  rw [hnew, hs.newSeries, nil_append, map_fst_registered] at hmem
  exact href (of_decide_eq_true heq ▸ hmem)

variable (hc : Committed h r a h')
include hc

/-- What a series had before the commit, whether it is new or not. -/
lemma Committed.before {ref : ℕ} (href : ref ∈ h'.series) :
    (∀ x ∈ (r.head.mem ref).samples, x.1 ≤ (r.head.mem ref).maxTime) ∧
      (r.head.mem ref).maxTime = lastTime minInt64 (h.loggedSamples ref) ∧
      (ref ∈ h.series → (r.head.mem ref).samples = (h.mem ref).samples) ∧
      (ref ∉ h.series → (r.head.mem ref).samples = later minInt64 (h.loggedSamples ref)) := by
  have hchunks := hc.chunks ref href
  by_cases hold : ref ∈ h.series
  · rw [if_pos hold] at hchunks
    have hwf : (r.head.mem ref).WF := (hs.wf ref hold).2.of_chunks hchunks
    refine ⟨hwf.le_maxTime, ?_, fun _ => congrArg SeriesChunks.samples hchunks, absurd hold⟩
    rw [← hs.maxTime ref hold]
    exact congrArg SeriesChunks.maxTime hchunks
  rw [if_neg hold] at hchunks
  have hsamples : (r.head.mem ref).samples = [] := congrArg SeriesChunks.samples hchunks
  have hmax : (r.head.mem ref).maxTime = minInt64 := congrArg SeriesChunks.maxTime hchunks
  rw [hs.loggedSamples_eq_nil hold, hsamples, hmax]
  exact ⟨by simp, rfl, fun hmem => absurd hmem hold, fun _ => rfl⟩

lemma Logs.commit : Logs h₀ h' := by
  obtain ⟨hsome, hlog⟩ := hc.log hs
  have hregs : h'.registered = h.registered ++ a.seriesRefs := hc.registered
  refine ⟨hs.settings.trans hc.settings, hc.wf, hc.distinct, hsome, ?_, ?_, ?_⟩
  · rw [hlog, flatMap_append, hs.newSeries, newSeries_logRecords, hregs]
  · rw [hlog, flatMap_append, inSequence_append]
    refine ⟨hs.inSequence, ?_⟩
    rw [(tasks_flatMap _).1, hs.newSeries, nil_append]
    refine inSequence_logRecords ?_ ?_ ?_
    · rw [← hregs, map_fst_registered]
      exact hc.distinct.refs
    · rw [← hregs]
      exact hc.distinct.labels
    · intro x hx
      rw [← hregs, map_fst_registered, ← hs.settings.minValidTime]
      exact hc.accepted x ((mem_commitOrder_iff hc.kinds x).1 (a.perm_logOrder.mem_iff.1 hx))
  · intro ref href
    rw [hc.maxTime ref href, (hc.before hs href).2.1, hc.loggedSamples hs, lastTime_append]
    exact (lastTime_samplesOf_perm a.perm_logOrder ref _).symm

/-- A commit keeps the log good if and only if it keeps the order. -/
lemma Logs.restorable_iff : h'.Restorable ↔ h.Restorable ∧ r.KeepsOrder := by
  have hsub : h.series ⊆ h'.series := by
    intro ref href
    rw [← map_fst_registered, hc.registered, map_append, map_fst_registered]
    exact mem_append_left _ href
  -- What is restored is what was there before, and what the commit adds.
  have hsplit : ∀ ref ∈ h'.series, ((h'.mem ref).samples = later minInt64 (h'.loggedSamples ref) ↔
      (r.head.mem ref).samples = later minInt64 (h.loggedSamples ref) ∧
        ∀ k, ¬ Overtaken SampleValue.usesCustomBuckets
          (lastTime (r.head.mem ref).maxTime (samplesOf ref (r.accepted.filter (·.v.kind < k))))
          (samplesOf ref (r.accepted.filter (·.v.kind = k)))) := by
    intro ref href
    obtain ⟨hle, hmax, -, -⟩ := hc.before hs href
    rw [← later_logOrder_iff hc.kinds, hc.samples ref href, hc.loggedSamples hs,
      later_append, ← hmax,
      append_later_inj hle ?_, eq_comm (a := later _ (samplesOf ref a.logOrder))]
    intro x hx
    rw [hmax]
    exact le_lastTime_of_mem_later hx
  constructor
  · intro hrest
    refine ⟨fun ref href => ?_, fun ref k => ?_⟩
    · rw [← (hc.before hs (hsub href)).2.2.1 href]
      exact ((hsplit ref (hsub href)).1 (hrest ref (hsub href))).1
    by_cases href : ref ∈ h'.series
    · exact ((hsplit ref href).1 (hrest ref href)).2 k
    -- The appender has no samples of this series.
    have hnone : samplesOf ref (r.accepted.filter (·.v.kind = k)) = [] := by
      rw [samplesOf, map_eq_nil_iff, filter_eq_nil_iff]
      intro x hx heq
      exact href (of_decide_eq_true heq ▸ (hc.accepted x (mem_filter.1 hx).1).1)
    rw [hnone]
    exact not_overtaken_of_pairwise .nil
  · rintro ⟨hrest, horder⟩ ref href
    refine (hsplit ref href).2 ⟨?_, horder ref⟩
    by_cases hold : ref ∈ h.series
    · rw [(hc.before hs href).2.2.1 hold]
      exact hrest ref hold
    · exact (hc.before hs href).2.2.2 hold

end

end Commit

/-! ### Recovery -/

lemma AppendRun.keepsOrder_of_nil {r : AppendRun} (hacc : r.accepted = []) : r.KeepsOrder := by
  intro ref k
  rw [hacc]
  exact not_overtaken_of_pairwise .nil

/-- A head without data, before any appender. -/
lemma logs_empty (opts : HeadOptions) (chunkRange minValidTime : ℤ) (isolationDisabled : Bool) :
    Logs (.empty opts chunkRange minValidTime isolationDisabled)
      (.empty opts chunkRange minValidTime isolationDisabled) where
  settings := ⟨rfl, rfl, rfl⟩
  wf := fun _ href => absurd href not_mem_nil
  distinct := ⟨.nil, .nil⟩
  wal := rfl
  newSeries := rfl
  inSequence := trivial
  maxTime := fun _ href => absurd href not_mem_nil

lemma Logs.commitStep {h₀ h h' : Head} (hooo : h₀.opts.outOfOrderTimeWindow = 0) (hs : Logs h₀ h)
    {c : Option ℕ × List AppendCall} (hstep : h.commitStep c = some h') :
    Logs h₀ h' ∧ (h'.Restorable ↔ h.Restorable ∧ h.InLogOrder c) := by
  obtain rfl := Option.some.inj hstep
  have hooo : h.opts.outOfOrderTimeWindow = 0 := by rw [hs.settings.opts, hooo]
  rcases commitAppender_spec hs.wf hs.distinct hooo c.1 c.2 with ⟨heq, hacc⟩ | ⟨a, hc⟩
  · rw [heq]
    exact ⟨hs, (and_iff_left (AppendRun.keepsOrder_of_nil hacc)).symm⟩
  · exact ⟨hs.commit hc, hs.restorable_iff hc⟩

lemma WalReplay.closed_frame (args : LoadArgs) (r : WalReplay) :
    (r.closed args).registered = r.head.registered ∧ (r.closed args).mem = r.head.mem := by
  rw [closed]
  generalize range args.concurrency = workers
  generalize r.head = h
  induction workers generalizing h with
  | nil => exact ⟨rfl, rfl⟩
  | cons i workers ih => exact ih _

/-- Appenders commit one after the other on a head that had no data, without out-of-order ingestion.
Their log is loaded into another head without data, which has no chunks on disk and whose callback
refuses no series, by any number of workers. Whatever the schedule, it can be continued until
nothing is left to do. And then the head has the same samples as the live one if and only if every
commit keeps the order of its log. -/
theorem Head.replay_recovers_iff (opts opts' : HeadOptions) (hooo : opts.outOfOrderTimeWindow = 0)
    (hcreate : ∀ lset, opts'.preCreation lset = none)
    (chunkRange chunkRange' minValidTime minValidTime' : ℤ) (hvalid : minValidTime' ≤ minValidTime)
    (isolationDisabled isolationDisabled' : Bool) (commits : List (Option ℕ × List AppendCall))
    (live : Head)
    (hrun : run commitStep (.empty opts chunkRange minValidTime isolationDisabled)
      commits = some live)
    (args : LoadArgs) (hn : 1 ≤ args.concurrency) (hmm : ∀ ref, args.mmappedChunks ref = []) :
    let load := (empty opts' chunkRange' minValidTime' isolationDisabled').loadWAL
      (live.wal.getD [])
    (∀ schedule, ∃ rest, (load.run args (schedule ++ rest)).Finished args) ∧
      ∀ schedule, (load.run args schedule).Finished args →
        (Recovers live ((load.run args schedule).closed args) ↔
          Along commitStep InLogOrder (.empty opts chunkRange minValidTime isolationDisabled)
            commits) := by
  intro load
  set h₀ := empty opts chunkRange minValidTime isolationDisabled with hh₀
  have hlogs : Logs h₀ live := run_invariant
    (fun _ _ _ hs hstep => (hs.commitStep hooo hstep).1) hrun (logs_empty ..)
  have hiff : live.Restorable ↔ h₀.Restorable ∧ Along commitStep InLogOrder h₀ commits :=
    good_iff_along (fun h _ _ (hs : Logs h₀ h) hstep => (hs.commitStep hooo hstep).1)
      (fun _ _ _ hs hstep => (hs.commitStep hooo hstep).2) (logs_empty ..) hrun
  have hstart : h₀.Restorable := fun ref href => absurd href not_mem_nil
  refine ⟨fun schedule => ?_, fun schedule hfin => ?_⟩
  · obtain ⟨rest, hrest⟩ := WalReplay.exists_finished args (load.run args schedule)
    exact ⟨rest, by rwa [WalReplay.run_append]⟩
  have hseq : InSequence minValidTime' [] ((live.wal.getD []).flatMap WalRecord.tasks) :=
    InSequence.mono hvalid hlogs.inSequence
  obtain ⟨hregistered, hsamples⟩ := loadWAL_restores args rfl hcreate
    (fun _ => rfl) hn hmm hseq hfin
  obtain ⟨hreg, hmem⟩ := WalReplay.closed_frame args (load.run args schedule)
  have hsame : ((load.run args schedule).closed args).registered = live.registered := by
    rw [hreg, hregistered, hlogs.newSeries]
  have hseries : (load.run args schedule).head.series = live.series := by
    rw [← map_fst_registered, ← map_fst_registered, ← hreg, hsame]
  rw [← and_iff_right hstart (b := Along _ _ _ _), ← hiff]
  constructor
  · intro hrec ref href
    rw [← hrec.samples ref href, hmem]
    exact hsamples ref (hseries ▸ href)
  · intro hrest
    refine ⟨hsame, fun ref href => ?_⟩
    rw [hmem, hrest ref href]
    exact hsamples ref (hseries ▸ href)

/-- An empty histogram with custom buckets. -/
def customHistogram : Histogram := { histogramWithSum 0 with schema := -53 }

/-- A histogram with custom buckets is appended and then, to the same series, a later one with
exponential buckets. Both are stored. After the log is loaded, by one worker, only the second one is
there. -/
theorem Head.replay_loses_customBuckets :
    let lset : List Label := [⟨[97], [98]⟩]
    let live := example.commitAppender none
      [.appendHistogram 0 lset 1 (some customHistogram) none,
        .appendHistogram 0 lset 2 (some (histogramWithSum 0)) none]
    let args : LoadArgs := ⟨1, fun _ => [], 0⟩
    let r := (example.loadWAL (live.wal.getD [])).run args
      (replicate 6 none ++ replicate 3 (some 0))
    (live.mem 1).samples = [(1, .histogram customHistogram), (2, .histogram (histogramWithSum 0))] ∧
      r.Finished args ∧ ((r.closed args).mem 1).samples = [(2, .histogram (histogramWithSum 0))] ∧
      ¬ Recovers live (r.closed args) := by
  intro lset live args r
  have hlive : (live.mem 1).samples =
      [(1, .histogram customHistogram), (2, .histogram (histogramWithSum 0))] := by decide +kernel
  have hsamples : ((r.closed args).mem 1).samples = [(2, .histogram (histogramWithSum 0))] := by
    decide +kernel
  have hmem : 1 ∈ live.series := by decide +kernel
  refine ⟨hlive, ⟨by decide +kernel, by decide +kernel⟩, hsamples, fun hrec => ?_⟩
  have heq := hrec.samples 1 hmem
  rw [hlive, hsamples] at heq
  exact absurd (congrArg length heq) (by decide)

/-- Here the histogram with custom buckets is the later one, and there are two workers. Everything
is restored. -/
theorem Head.replay_restores_customBuckets :
    let lset : List Label := [⟨[97], [98]⟩]
    let calls : List AppendCall := [.appendHistogram 0 lset 1 (some (histogramWithSum 0)) none,
      .appendHistogram 0 lset 2 (some customHistogram) none]
    let live := Head.example.commitAppender none calls
    let args : LoadArgs := ⟨2, fun _ => [], 0⟩
    let load := Head.example.loadWAL (live.wal.getD [])
    (live.mem 1).samples = [(1, .histogram (histogramWithSum 0)), (2, .histogram customHistogram)] ∧
      ∀ schedule, (load.run args schedule).Finished args →
        Recovers live ((load.run args schedule).closed args) := by
  intro lset calls
  set live := Head.example.commitAppender none calls with hlive
  have hacc : (Head.example.appendRun none calls).accepted =
      [⟨1, 1, .histogram (histogramWithSum 0)⟩, ⟨1, 2, .histogram customHistogram⟩] := by
    decide +kernel
  have horder : Head.example.InLogOrder (none, calls) := by
    intro ref k
    refine not_overtaken_of_pairwise ?_
    have hpair : (Head.example.appendRun none calls).accepted.Pairwise fun x y =>
        x.v.usesCustomBuckets = true → y.v.usesCustomBuckets = true := by
      rw [hacc]
      decide
    exact pairwise_map.2 ((hpair.sublist filter_sublist).sublist filter_sublist)
  have hrun : run commitStep Head.example [(none, calls)] = some live := rfl
  have hiff := replay_recovers_iff Head.example.opts Head.example.opts rfl
    (fun _ => rfl) 7200000 7200000 minInt64
    minInt64 le_rfl false false [(none, calls)] live hrun ⟨2, fun _ => [], 0⟩
      (by decide) fun _ => rfl
  refine ⟨by decide +kernel, fun schedule hfin => ?_⟩
  exact (hiff.2 schedule hfin).2 ⟨horder, fun _ _ => trivial⟩

end Prometheus.Tsdb
