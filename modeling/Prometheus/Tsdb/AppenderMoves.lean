import Prometheus.Tsdb.Appenders

/-!
# What the steps of appenders can do

All that matters of a step for the other appenders is what it does to the registered series and to
the log. There are four kinds (`Move`): an appender works on what it has in hand, creates a series,
or logs a record, or the garbage collection checks a series. `step_move` says that every step is of
one of these kinds, and what the appender holds then.
-/

namespace Prometheus.Tsdb

open GoInt Record List Head

/-! ### The refs that an appender holds -/

/-- The refs that a record of the log is about, besides series records. -/
def WalRecord.refs : WalRecord → List ℕ
  | series _ => []
  | metadata ms => ms.map (·.1)
  | samples xs => xs.map (·.ref)
  | histogramSamples xs => xs.map (·.ref)
  | customBucketsHistogramSamples xs => xs.map (·.ref)
  | floatHistogramSamples xs => xs.map (·.ref)
  | customBucketsFloatHistogramSamples xs => xs.map (·.ref)
  | exemplars es => es.map (·.1)

variable {a : HeadAppender} {rec : WalRecord}

namespace HeadAppender

/-- The refs of all that an appender has buffered, and of its new series. -/
def refs (a : HeadAppender) : List ℕ :=
  a.seriesRefs.map (·.1) ++ a.metadata.map (·.1) ++ a.samples.map (·.ref) ++
    a.histograms.map (·.ref) ++ a.floatHistograms.map (·.ref) ++ a.exemplars.map (·.1)

lemma mem_refs_buffer (a : HeadAppender) (x : RefValue SampleValue) {ref : ℕ}
    (h : ref ∈ (a.buffer x).refs) : ref ∈ a.refs ∨ ref = x.ref := by
  obtain ⟨r, t, v⟩ := x
  cases v <;>
    simp only [buffer, refs, seen, map_append, map_cons, map_nil, mem_append,
      mem_singleton] at h ⊢ <;> tauto

lemma mem_recordOf {α : Type} {record : List α → WalRecord} {xs : List α}
    (h : rec ∈ recordOf record xs) : rec = record xs := by
  rw [recordOf] at h
  split at h
  · cases h
  · exact mem_singleton.1 h

lemma customBuckets_refs_subset (custom : Bool) (xs : List (RefValue Histogram)) :
    (customBuckets custom xs).map (·.ref) ⊆ xs.map (·.ref) :=
  (filter_sublist.map _).subset

/-- The log is about what the appender holds. -/
lemma refs_subset_of_mem_logRecords (h : rec ∈ a.logRecords) : rec.refs ⊆ a.refs := by
  have hcustom := fun custom => customBuckets_refs_subset custom a.histograms
  have hcustomFloat := fun custom => customBuckets_refs_subset custom a.floatHistograms
  simp only [logRecords, mem_append] at h
  intro ref href
  simp only [refs, mem_append]
  rcases h with ((((((h | h) | h) | h) | h) | h) | h) | h <;> rw [mem_recordOf h] at href
  · cases href
  · exact .inl (.inl (.inl (.inl (.inr href))))
  · exact .inl (.inl (.inl (.inr href)))
  · exact .inl (.inl (.inr (hcustom false href)))
  · exact .inl (.inl (.inr (hcustom true href)))
  · exact .inl (.inr (hcustomFloat false href))
  · exact .inl (.inr (hcustomFloat true href))
  · exact .inr href

end HeadAppender

/-- The series that an append has found, before it has its lock. -/
def Progress.refs : Progress → List ℕ
  | lock sref _ => [sref]
  | _ => []

/-- The series that a task is about. -/
def Task.refs : Task → List ℕ
  | log rec => rec.refs
  | commit x => [x.ref]
  | metadata ref _ => [ref]
  | unmark ref => [ref]
  | close => []

/-- All series that an appender has still to do with. -/
def Phase.refs : Phase → List ℕ
  | absent => []
  | active a p => a.refs ++ p.refs
  | closing c => c.app.refs ++ c.tasks.flatMap Task.refs

attribute [local simp] Progress.refs

/-- The new series of an appender. -/
def Phase.seriesRefs (p : Phase) : List (ℕ × List Label) :=
  (p.app.map HeadAppender.seriesRefs).getD []

/-! ### What a step can do -/

/-- The registered series and the log stay as they are. -/
structure Head.Same (h h' : Head) : Prop where
  wal : h'.wal = h.wal
  series : h'.series = h.series
  lastSeriesID : h.lastSeriesID ≤ h'.lastSeriesID
  lset : ∀ ref, (h'.mem ref).lset = (h.mem ref).lset

/-- A new series is registered. -/
structure Head.Adds (h : Head) (lset : List Label) (h' : Head) : Prop where
  absent : h.getByHash lset = none
  wal : h'.wal = h.wal
  series : h'.series = h.series ++ [h.lastSeriesID + 1]
  lastSeriesID : h'.lastSeriesID = h.lastSeriesID + 1
  lset_new : (h'.mem (h.lastSeriesID + 1)).lset = lset
  lset : ∀ ref, ref ≠ h.lastSeriesID + 1 → (h'.mem ref).lset = (h.mem ref).lset

lemma Head.Same.refl (h : Head) : h.Same h :=
  ⟨rfl, rfl, le_rfl, fun _ => rfl⟩

lemma Head.Same.trans {h h' h'' : Head} (hs : h.Same h') (hs' : h'.Same h'') : h.Same h'' :=
  ⟨hs'.wal.trans hs.wal, hs'.series.trans hs.series, hs.lastSeriesID.trans hs'.lastSeriesID,
    fun ref => (hs'.lset ref).trans (hs.lset ref)⟩

lemma Head.Same.update (h : Head) (ref : ℕ) (f : HeadSeries → HeadSeries)
    (hf : (f (h.mem ref)).lset = (h.mem ref).lset) : h.Same (h.update ref f) := by
  refine ⟨rfl, rfl, le_rfl, fun r => ?_⟩
  by_cases hr : r = ref
  · rw [hr, update_mem_self, hf]
  · rw [update_mem_of_ne _ hr]

lemma HeadAppender.commitValue_lset (a : HeadAppender) (opts : HeadOptions) (t : ℤ)
    (v : SampleValue) (s : HeadSeries) : (a.commitValue opts t v s).2.lset = s.lset := by
  have happend : (s.append opts.rules t v).2.lset = s.lset := by
    rw [HeadSeries.append]
    split
    · rfl
    · cases v <;> rfl
  rw [commitValue]
  cases s.appendableValue t v a.headMaxt a.minValidTime a.oooTimeWindow with
  | error err => rfl
  | ok isOOO =>
    cases isOOO with
    | true => rfl
    | false => exact happend

lemma HeadAppender.same_commitTurn (a : HeadAppender) (acc : CommitContext)
    (x : RefValue SampleValue) : acc.head.Same (a.commitTurn id acc x).head :=
  .update acc.head x.ref (fun _ => (a.commitValue acc.head.opts x.t x.v (acc.head.mem x.ref)).2)
    (a.commitValue_lset ..)

variable {lset : List Label}

lemma Head.Adds.create {h : Head} (habsent : h.getByHash lset = none) :
    h.Adds lset (h.create lset) := by
  refine ⟨habsent, rfl, rfl, rfl, ?_, fun ref hne => ?_⟩
  · rw [create_mem_self]
    rfl
  · rw [create_mem_of_ne _ hne]

/-- What a step of a call does to the registered series, and to what the appender holds. -/
structure CallSpec (a : HeadAppender) (h : Head) (refs : List ℕ)
    (s : Progress × HeadAppender × Head) : Prop where
  /-- There may be a new series, which the appender notes. -/
  grows : (h.Same s.2.2 ∧ s.2.1.seriesRefs = a.seriesRefs) ∨
    ∃ lset, h.Adds lset s.2.2 ∧ s.2.1.seriesRefs = a.seriesRefs ++ [(h.lastSeriesID + 1, lset)]
  refs : ∀ ref ∈ s.2.1.refs ++ s.1.refs, ref ∈ a.refs ∨ ref ∈ refs ∨ ref ∈ s.2.2.series

variable {refs : List ℕ}

namespace CallSpec

variable {a : HeadAppender} {h : Head}

variable {a' : HeadAppender} {h' : Head} {p : Progress}

/-- Nothing happens to the series. -/
lemma same (hsame : h.Same h') (hnew : a'.seriesRefs = a.seriesRefs)
    (hrefs : ∀ ref ∈ a'.refs ++ p.refs, ref ∈ a.refs ∨ ref ∈ refs ∨ ref ∈ h'.series) :
    CallSpec a h refs (p, a', h') :=
  ⟨.inl ⟨hsame, hnew⟩, hrefs⟩

/-- Nothing happens to what the appender holds either. -/
lemma sameRefs (hsame : h.Same h')
    (hnew : a'.seriesRefs = a.seriesRefs) (hrefs : a'.refs = a.refs) (hp : p.refs = []) :
    CallSpec a h refs (p, a', h') :=
  same hsame hnew fun ref href => .inl (by rwa [hp, append_nil, hrefs] at href)

/-- The call has returned without a change. -/
lemma unchanged (r : Except AppendError ℕ) (refs : List ℕ) : CallSpec a h refs (.done r, a, h) :=
  sameRefs (.refl h) rfl rfl rfl

/-- A sample is accepted for a series in hand. -/
lemma accept (x : RefValue SampleValue) (r : Except AppendError ℕ) (hsame : h.Same h') :
    CallSpec a h [x.ref] (.done r, AppendEvent.apply (a, h') (.accept x)) := by
  have hmark : h.Same (AppendEvent.apply (a, h') (.accept x)).2 := by
    rw [AppendEvent.apply]
    split
    · exact hsame.trans (.update h' x.ref (fun s => { s with pendingCommit := true }) rfl)
    · exact hsame
  refine same hmark ?_ fun ref href => ?_
  · exact a.buffer_seriesRefs x
  rcases a.mem_refs_buffer x (by simpa using href) with href | rfl
  · exact .inl href
  · exact .inr (.inl (mem_singleton_self _))

/-- A series is looked for, and is in hand then. -/
lemma resolve {ref : ℕ} {r : Except AppendError (ℕ × Bool)}
    (hr : a.resolve h ref lset = (r, a', h'))
    (hp : ∀ sref ∈ p.refs, ∃ created, r = .ok (sref, created)) : CallSpec a h [] (p, a', h') := by
  have hmem : ∀ s₁ ∈ p.refs, ∀ s₂ created, r = .ok (s₂, created) → s₁ = s₂ := by
    intro s₁ hs₁ s₂ created heq
    obtain ⟨c, hc⟩ := hp s₁ hs₁
    rw [hc] at heq
    cases heq
    rfl
  -- what is in hand when there is no series
  have hfails : ∀ err, r = .error err → ∀ ref ∈ a.refs ++ p.refs, ref ∈ a.refs := by
    intro err herr ref href
    rcases mem_append.1 href with href | href
    · exact href
    · obtain ⟨c, hc⟩ := hp ref href
      cases herr.symm.trans hc
  rcases a.resolve_cases h ref lset with
    ⟨err, heq⟩ | ⟨err, heq⟩ | ⟨sref, hsref, heq⟩ | ⟨lset', habsent, heq⟩
  · rw [heq] at hr
    cases hr
    exact same (.refl h) rfl fun ref href => .inl (hfails err rfl ref href)
  · rw [heq] at hr
    cases hr
    exact same ⟨rfl, rfl, Nat.le_succ _, fun _ => rfl⟩ rfl fun ref href =>
      .inl (hfails err rfl ref href)
  · rw [heq] at hr
    cases hr
    refine same (.refl h) rfl fun ref href => ?_
    rcases mem_append.1 href with href | href
    · exact .inl href
    · rw [hmem ref href sref false rfl]
      exact .inr (.inr hsref)
  rw [heq] at hr
  cases hr
  refine ⟨.inr ⟨lset', .create habsent, rfl⟩, fun ref href => ?_⟩
  have hnew : h.lastSeriesID + 1 ∈ (h.create lset').series := by simp [create]
  rcases mem_append.1 href with href | href
  · simp only [HeadAppender.refs, map_append, map_cons, map_nil, mem_append, mem_singleton] at href
    simp only [HeadAppender.refs, mem_append]
    rcases href with (((((href | href) | href) | href) | href) | href) | href
    · tauto
    · exact .inr (.inr (href ▸ hnew))
    all_goals tauto
  · rw [hmem ref href _ true rfl]
    exact .inr (.inr hnew)

variable (a h)

lemma find (c : AppendCall) : CallSpec a h [] (c.find a h) := by
  have hlook : ∀ {ref : ℕ} {lset : List Label} {sref : ℕ},
      (h.getByID ref).or (h.getByHash lset) = some sref → sref ∈ h.series := by
    intro ref lset sref hsref
    rcases Option.or_eq_some_iff.1 hsref with hid | ⟨-, hhash⟩
    · obtain ⟨rfl, hmem⟩ := mem_of_getByID hid
      exact hmem
    · exact mem_of_getByHash hhash
  cases c with
  | append ref lset t v =>
    rw [AppendCall.find]
    split
    · exact unchanged ..
    rcases hr : a.resolve h ref lset with ⟨err | ⟨sref, created⟩, a', h'⟩
    · exact resolve hr (by simp)
    · exact resolve hr (by simp)
  | appendHistogram ref lset t hist fh =>
    rw [AppendCall.find]
    split
    · exact unchanged ..
    rcases hr : a.resolve h ref lset with ⟨err | ⟨sref, created⟩, a', h'⟩
    · exact resolve hr (by simp)
    · exact resolve hr (by simp)
  | updateMetadata ref lset m =>
    rw [AppendCall.find]
    split
    case h_1 => exact unchanged ..
    case h_2 sref hsref =>
      refine same (.refl h) rfl fun r hr => ?_
      rcases mem_append.1 hr with hr | hr
      · exact .inl hr
      · rw [mem_singleton.1 hr]
        exact .inr (.inr (hlook hsref))
  | appendExemplar ref lset e =>
    rw [AppendCall.find, HeadAppender.appendExemplar]
    split
    · exact unchanged ..
    split
    case h_1 => exact unchanged ..
    case h_2 sref hsref =>
      dsimp only
      split
      case h_4 =>
        refine same (.refl h) rfl fun r hr => ?_
        have hmem := hlook hsref
        simp only [HeadAppender.refs, map_append, map_cons, map_nil,
          mem_append, mem_singleton, Progress.refs, not_mem_nil, or_false] at hr ⊢
        rcases hr with hr | hr | rfl
        · tauto
        · tauto
        · exact .inr (.inr hmem)
      all_goals exact unchanged ..
  | setOptions discard => exact sameRefs (.refl h) rfl rfl rfl

lemma locked (sref : ℕ) (work : Locked) : CallSpec a h [sref] (work.run a h sref) := by
  have hpreset : ∀ created last lastFloat,
      h.Same (h.update sref (·.presetLast created last lastFloat)) := fun created last lastFloat =>
    .update h sref _ ((h.mem sref).presetLast_lset created last lastFloat)
  cases work with
  | append ref lset t v =>
    rw [Locked.run]
    split
    · exact sameRefs (.refl h) rfl rfl rfl
    rw [returned]
    rcases a.appendLocked_cases h sref t v with ⟨err, heq⟩ | heq
    · rw [heq]
      exact unchanged ..
    · rw [heq]
      exact accept ⟨sref, t, .float v⟩ (.ok sref) (.refl h)
  | appendHistogram created t hist fh =>
    rw [Locked.run, returned]
    rcases hist with _ | hist
    · rcases fh with _ | fh
      · exact sameRefs (.refl h) rfl rfl rfl
      rw [HeadAppender.appendHistograms]
      rcases a.appendFloatHistogramLocked_cases h sref created t fh with ⟨err, heq⟩ | heq
      · rw [heq]
        exact sameRefs (hpreset ..) rfl rfl rfl
      · rw [heq]
        exact accept ⟨sref, t, .floatHistogram fh⟩ (.ok sref) (hpreset ..)
    · rw [HeadAppender.appendHistograms]
      rcases a.appendHistogramLocked_cases h sref created t hist with ⟨err, heq⟩ | heq
      · rw [heq]
        exact sameRefs ((hpreset ..).trans (.update _ sref _ rfl)) rfl rfl rfl
      · rw [heq]
        exact accept ⟨sref, t, .histogram hist⟩ (.ok sref) (hpreset ..)
  | updateMetadata m =>
    rw [Locked.run]
    split
    · exact unchanged ..
    refine same (.refl h) rfl fun r hr => ?_
    simp only [HeadAppender.refs, map_append, map_cons, map_nil,
      mem_append, mem_singleton, Progress.refs, not_mem_nil, or_false] at hr ⊢
    tauto

variable {a h}

/-- The next step of a call. -/
lemma next {s : Progress × HeadAppender × Head} (hs : p.next a h = some s) :
    CallSpec a h p.refs s := by
  cases p with
  | done r => cases hs
  | lock sref work =>
    cases hs
    exact locked ..
  | call c =>
    cases hs
    exact find ..

end CallSpec

/-- How an appender logs its new series. -/
structure Closing.LogsSeries (c : Closing) (wal : List WalRecord) : Prop where
  /-- It logs no others. -/
  own : ∀ xs, .log (.series xs) ∈ c.tasks → xs = c.app.seriesRefs
  /-- They were logged, or they are the first that is logged. -/
  first : .series c.app.seriesRefs ∈ wal ∨ c.app.seriesRefs = [] ∨
    ∀ task, c.tasks.find? Task.isLog = some task → task = .log (.series c.app.seriesRefs)

/-- The same for an appender in any phase. -/
def Phase.LogsSeries (wal : List WalRecord) : Phase → Prop
  | closing c => c.LogsSeries wal
  | _ => True

variable {c : Closing}

namespace HeadAppender

variable {a b : HeadAppender}

variable {task : Task} {h : Head} {a : HeadAppender} {ref : ℕ}

lemma find?_logTasks (hb : b.seriesRefs = a.seriesRefs) (hne : a.seriesRefs ≠ []) (h : Head)
    (hfind : (b.logTasks h).find? Task.isLog = some task) :
    task = .log (.series a.seriesRefs) := by
  have hrecords : ∃ rest, b.logRecords = .series a.seriesRefs :: rest := by
    simp [logRecords, recordOf, hb, hne]
  obtain ⟨rest, hrest⟩ := hrecords
  rw [logTasks] at hfind
  split at hfind
  · rw [hrest] at hfind
    cases hfind
    rfl
  · cases hfind

/-- There is nothing to log among some steps. -/
lemma find?_isLog_map {α : Type} {f : α → Task} (hf : ∀ x, (f x).isLog = false) (xs : List α) :
    (xs.map f).find? Task.isLog = none := by
  refine find?_eq_none.2 fun task htask => ?_
  obtain ⟨x, -, rfl⟩ := mem_map.1 htask
  simp [hf x]

variable (a)

lemma find?_closeTasks : a.closeTasks.find? Task.isLog = none := by
  rw [closeTasks, find?_append, find?_isLog_map fun _ => rfl]
  rfl

lemma series_mem_logTasks {xs : List (ℕ × List Label)}
    (hmem : .log (.series xs) ∈ b.logTasks h) : xs = b.seriesRefs := by
  rw [logTasks] at hmem
  split at hmem
  · obtain ⟨rec, hrec, heq⟩ := mem_map.1 hmem
    cases heq
    simp only [logRecords, mem_append] at hrec
    rcases hrec with ((((((h | h) | h) | h) | h) | h) | h) | h
    · exact WalRecord.series.inj (mem_recordOf h)
    all_goals cases mem_recordOf h
  · cases hmem

/-- What is logged are the new series and then other records, in the midst of other steps. -/
lemma logsSeries_of_append {before after : List Task}
    (hb : b.seriesRefs = c.app.seriesRefs) (htasks : c.tasks = before ++ b.logTasks h ++ after)
    (hbefore : before.find? Task.isLog = none) (hafter : after.find? Task.isLog = none)
    (wal : List WalRecord) : c.LogsSeries wal := by
  refine ⟨fun xs hmem => ?_, .inr ((em (c.app.seriesRefs = [])).imp_right fun hne task hfind => ?_)⟩
  · rw [htasks] at hmem
    simp only [mem_append] at hmem
    rcases hmem with (hmem | hmem) | hmem
    · exact absurd rfl (find?_eq_none.1 hbefore _ hmem)
    · rw [series_mem_logTasks hmem, hb]
    · exact absurd rfl (find?_eq_none.1 hafter _ hmem)
  · rw [htasks, find?_append, find?_append, hbefore, hafter, Option.none_or,
      Option.or_none] at hfind
    exact find?_logTasks hb hne h hfind

lemma logsSeries_commitTasks (h : Head) (wal : List WalRecord) (mint maxt : ℤ) :
    Closing.LogsSeries ⟨a, false, a.commitTasks h, mint, maxt⟩ wal := by
  have htasks : a.commitTasks h = [] ++ a.logTasks h ++ (a.commitOrder.map .commit ++
      a.metadata.map (fun x => .metadata x.1 x.2) ++ a.closeTasks) := by
    simp [commitTasks]
  refine logsSeries_of_append rfl htasks find?_nil ?_ wal
  rw [find?_append, find?_append, find?_isLog_map fun _ => rfl,
    find?_isLog_map fun _ => rfl, find?_closeTasks]
  rfl

lemma logsSeries_rollbackTasks (h : Head) (wal : List WalRecord)
    (mint maxt : ℤ) : Closing.LogsSeries ⟨a, true, a.rollbackTasks h, mint, maxt⟩ wal :=
  logsSeries_of_append (b := a.emptied) rfl rfl (find?_isLog_map (fun _ => rfl) _)
    a.find?_closeTasks wal

variable {a}

lemma mem_refs_of_mem_logTasks
    (htask : task ∈ a.logTasks h) (href : ref ∈ task.refs) : ref ∈ a.refs := by
  rw [logTasks] at htask
  split at htask
  · obtain ⟨rec, hrec, rfl⟩ := mem_map.1 htask
    exact refs_subset_of_mem_logRecords hrec href
  · cases htask

lemma mem_refs_of_mem_closeTasks
    (htask : task ∈ a.closeTasks) (href : ref ∈ task.refs) : ref ∈ a.refs := by
  rcases mem_append.1 htask with htask | htask
  · obtain ⟨x, hx, rfl⟩ := mem_map.1 htask
    rw [mem_singleton.1 href]
    simp only [refs, mem_append]
    exact .inl (.inl (.inl (.inl (.inl (mem_map_of_mem hx)))))
  · rw [mem_singleton.1 htask] at href
    cases href

lemma mem_refs_of_mem_commitTasks
    (htask : task ∈ a.commitTasks h) (href : ref ∈ task.refs) : ref ∈ a.refs := by
  simp only [commitTasks, mem_append] at htask
  rcases htask with ((htask | htask) | htask) | htask
  · exact mem_refs_of_mem_logTasks htask href
  · obtain ⟨x, hx, rfl⟩ := mem_map.1 htask
    rw [mem_singleton.1 href]
    simp only [commitOrder, mem_append, mem_map] at hx
    simp only [refs, mem_append]
    rcases hx with (⟨y, hy, rfl⟩ | ⟨y, hy, rfl⟩) | ⟨y, hy, rfl⟩
    · exact .inl (.inl (.inl (.inr (mem_map_of_mem hy))))
    · exact .inl (.inl (.inr (mem_map_of_mem hy)))
    · exact .inl (.inr (mem_map_of_mem hy))
  · obtain ⟨x, hx, rfl⟩ := mem_map.1 htask
    rw [mem_singleton.1 href]
    simp only [refs, mem_append]
    exact .inl (.inl (.inl (.inl (.inr (mem_map_of_mem hx)))))
  · exact mem_refs_of_mem_closeTasks htask href

lemma mem_refs_of_mem_rollbackTasks
    (htask : task ∈ a.rollbackTasks h) (href : ref ∈ task.refs) : ref ∈ a.refs := by
  simp only [rollbackTasks, mem_append] at htask
  rcases htask with (htask | htask) | htask
  · obtain ⟨r, hr, rfl⟩ := mem_map.1 htask
    rw [mem_singleton.1 href]
    simp only [refs, mem_append]
    rcases mem_append.1 hr with hr | hr
    · exact .inl (.inl (.inl (.inr hr)))
    · exact .inl (.inl (.inr hr))
  · have hemptied := mem_refs_of_mem_logTasks htask href
    simp only [emptied, refs, map_nil, append_nil, mem_append] at hemptied ⊢
    tauto
  · exact mem_refs_of_mem_closeTasks htask href

end HeadAppender

/-- What the check of the garbage collection does to the registered series. -/
lemma Head.gcCheck_spec (h : Head) (ref : ℕ) (mint : ℤ) (minOOOMmapRef : ℕ) :
    (h.gcCheck ref mint minOOOMmapRef).wal = h.wal ∧
      (h.gcCheck ref mint minOOOMmapRef).lastSeriesID = h.lastSeriesID ∧
      (∀ r, ((h.gcCheck ref mint minOOOMmapRef).mem r).lset = (h.mem r).lset) ∧
      ∀ r, r ∈ (h.gcCheck ref mint minOOOMmapRef).series ↔ r ∈ h.series ∧
        (r = ref → ((h.mem ref).truncateChunksBefore mint minOOOMmapRef).keeps = true) := by
  have hlset : h.Same (h.update ref (·.truncateChunksBefore mint minOOOMmapRef)) :=
    .update h ref _ rfl
  rw [gcCheck]
  simp only [update_mem_self]
  split
  case isTrue hkeeps => exact ⟨rfl, rfl, hlset.lset, fun r => by simp [hkeeps, update]⟩
  case isFalse hkeeps => exact ⟨rfl, rfl, hlset.lset, fun r => by simp [hkeeps, update]⟩

namespace Appenders

variable (s : Appenders)

/-- A ref is in use: its series is registered, or an appender has it in hand. -/
def InUse (ref : ℕ) : Prop :=
  ref ∈ s.head.series ∨ ∃ i, ref ∈ (s.phase i).refs

lemma phase_set_self (i : ℕ) (p : Phase) (h : Head) : (s.set i p h).phase i = p :=
  Function.update_self ..

lemma phase_set_of_ne {i j : ℕ} (hj : j ≠ i) (p : Phase) (h : Head) :
    (s.set i p h).phase j = s.phase j :=
  Function.update_of_ne hj ..

variable {s : Appenders} {i : ℕ} {h : Head} {act : Action}

/-- What holds for the phase of one appender and for the others holds for all. -/
lemma forall_phase_set {p : Phase} {P : ℕ → Phase → Prop}
    (hp : P i p) (hs : ∀ j, j ≠ i → P j (s.phase j)) : ∀ j, P j ((s.set i p h).phase j) := by
  intro j
  by_cases hj : j = i
  · subst hj
    rw [phase_set_self]
    exact hp
  · rw [phase_set_of_ne s hj]
    exact hs j hj

/-- The record that a step logs, with the appender. -/
def logging (s : Appenders) : Action → Option (ℕ × WalRecord)
  | .task i true =>
    match s.phase i with
    | .closing c =>
      match c.tasks with
      | .log rec :: _ => some (i, rec)
      | _ => none
    | _ => none
  | _ => none

/-- What a step of each kind finds, and what it leaves. -/
inductive StepCases (s : Appenders) : Action → Appenders → Prop
  | appender {i : ℕ} {t : Option ℤ} {pick : Option ℕ} {h : Head} (hphase : s.phase i = .absent)
      (hstart : s.head.Started h) : StepCases s (.appender i t pick)
        (s.set i (.active (h.appender pick).1 (.done (.ok 0))) (h.appender pick).2)
  | call {i : ℕ} {c : AppendCall} {a : HeadAppender} {r : Except AppendError ℕ}
      (hphase : s.phase i = .active a (.done r)) :
      StepCases s (.call i c) (s.set i (.active a (.call c)) s.head)
  | next {i : ℕ} {a a' : HeadAppender} {p p' : Progress} {h : Head}
      (hphase : s.phase i = .active a p) (hnext : p.next a s.head = some (p', a', h)) :
      StepCases s (.next i) (s.set i (.active a' p') h)
  | commit {i : ℕ} {a : HeadAppender} {r : Except AppendError ℕ}
      (hphase : s.phase i = .active a (.done r)) : StepCases s (.commit i)
        (s.set i (.closing ⟨a, false, a.commitTasks s.head, Head.maxInt64, minInt64⟩) s.head)
  | rollback {i : ℕ} {a : HeadAppender} {r : Except AppendError ℕ}
      (hphase : s.phase i = .active a (.done r)) : StepCases s (.rollback i)
        (s.set i (.closing ⟨a, true, a.rollbackTasks s.head, Head.maxInt64, minInt64⟩) s.head)
  | task {i : ℕ} {ok : Bool} {c c' : Closing} {h : Head} (hphase : s.phase i = .closing c)
      (hnext : Closing.next (c, s.head) ok = some (c', h)) :
      StepCases s (.task i ok) (s.set i (.closing c') h)
  | gc {ref : ℕ} {mint : ℤ} {minOOOMmapRef : ℕ} (href : ref ∈ s.head.series) :
      StepCases s (.gc ref mint minOOOMmapRef)
        { s with head := s.head.gcCheck ref mint minOOOMmapRef }

/-- The cases of `step`, taken apart once for all that is said of it. -/
lemma step_cases {s' : Appenders} (hstep : s.step act = some s') : StepCases s act s' := by
  cases act with
  | appender i t pick =>
    simp only [step] at hstep
    split at hstep
    case h_2 => cases hstep
    case h_1 hphase =>
      cases hstep
      refine .appender hphase ?_
      cases t with
      | none => exact .inl rfl
      | some t => exact .inr ⟨t, rfl⟩
  | call i c =>
    rw [step] at hstep
    split at hstep <;> cases hstep
    exact .call ‹_›
  | next i =>
    rw [step] at hstep
    split at hstep
    case h_2 => cases hstep
    case h_1 a p hphase =>
      obtain ⟨⟨p', a', h⟩, hnext, rfl⟩ := Option.map_eq_some_iff.1 hstep
      exact .next hphase hnext
  | commit i =>
    rw [step] at hstep
    split at hstep <;> cases hstep
    exact .commit ‹_›
  | rollback i =>
    rw [step] at hstep
    split at hstep <;> cases hstep
    exact .rollback ‹_›
  | task i ok =>
    rw [step] at hstep
    split at hstep
    case h_2 => cases hstep
    case h_1 c hphase =>
      obtain ⟨⟨c', h⟩, hnext, rfl⟩ := Option.map_eq_some_iff.1 hstep
      exact .task hphase hnext
  | gc ref mint minOOOMmapRef =>
    rw [step] at hstep
    split at hstep <;> cases hstep
    exact .gc ‹_›

/-- What a step does. -/
inductive Move (s : Appenders) (act : Action) : Appenders → Prop
  /-- An appender does something with what it has in hand, or looks for registered series. -/
  | work (i : ℕ) (p : Phase) (h : Head) (hlogging : s.logging act = none)
      (hsame : s.head.Same h)
      (hnew : p.seriesRefs = (s.phase i).seriesRefs)
      (hrefs : ∀ ref ∈ p.refs, ref ∈ (s.phase i).refs ∨ ref ∈ s.head.series)
      (hclosing : ∀ c, s.phase i = .closing c → ∃ c', p = .closing c')
      (hlogs : ∀ wal, (s.phase i).LogsSeries wal → p.LogsSeries wal) : Move s act (s.set i p h)
  /-- An appender creates a series. -/
  | create (i : ℕ) (a a' : HeadAppender) (p p' : Progress) (h : Head) (lset : List Label)
      (hlogging : s.logging act = none) (hphase : s.phase i = .active a p)
      (hadds : s.head.Adds lset h)
      (hnew : a'.seriesRefs = a.seriesRefs ++ [(s.head.lastSeriesID + 1, lset)])
      (hrefs : ∀ ref ∈ (Phase.active a' p').refs, ref ∈ (s.phase i).refs ∨ ref ∈ h.series) :
      Move s act (s.set i (.active a' p') h)
  /-- An appender logs a record. -/
  | log (i : ℕ) (c : Closing) (rec : WalRecord) (tasks : List Task)
      (hlogging : s.logging act = some (i, rec)) (hphase : s.phase i = .closing c)
      (htasks : c.tasks = .log rec :: tasks) :
      Move s act (s.set i (.closing { c with tasks := tasks })
        { s.head with wal := s.head.wal.map (· ++ [rec]) })
  /-- The garbage collection checks a series. -/
  | gc (ref : ℕ) (mint : ℤ) (minOOOMmapRef : ℕ) (hact : act = .gc ref mint minOOOMmapRef)
      (href : ref ∈ s.head.series) :
      Move s act { s with head := s.head.gcCheck ref mint minOOOMmapRef }

lemma Move.next {p : Progress}
    (hphase : s.phase i = .active a p) {t : Progress × HeadAppender × Head}
    (hnext : p.next a s.head = some t) : Move s (.next i) (s.set i (.active t.2.1 t.1) t.2.2) := by
  obtain ⟨hgrows, hrefs⟩ := CallSpec.next hnext
  obtain ⟨p', a', h⟩ := t
  have hheld : ∀ ref ∈ (Phase.active a' p').refs, ref ∈ (s.phase i).refs ∨ ref ∈ h.series := by
    intro ref href
    rw [hphase, Phase.refs, mem_append, or_assoc]
    exact hrefs ref href
  rcases hgrows with ⟨hsame, hnew⟩ | ⟨lset, hadds, hnew⟩
  · refine .work i _ h rfl hsame ?_ ?_ ?_ ?_
    · rw [hphase]
      exact hnew
    · rw [← hsame.series]
      exact hheld
    · intro c hc
      rw [hphase] at hc
      cases hc
    · exact fun _ _ => trivial
  · exact .create i a a' p p' h lset rfl hphase hadds hnew hheld

/-- An appender starts to commit or to roll back. -/
lemma Move.close {p : Progress}
    (hphase : s.phase i = .active a p) (hlogging : s.logging act = none)
    (happ : c.app = a) (hrefs : ∀ task ∈ c.tasks, ∀ ref ∈ task.refs, ref ∈ a.refs)
    (hlogs : ∀ wal, c.LogsSeries wal) : Move s act (s.set i (.closing c) s.head) := by
  refine .work i _ _ hlogging (.refl _) ?_ ?_ ?_ ?_
  · rw [hphase]
    exact congrArg HeadAppender.seriesRefs happ
  · intro ref href
    rw [hphase]
    refine .inl (mem_append_left _ ?_)
    rcases mem_append.1 href with href | href
    · rwa [happ] at href
    · obtain ⟨task, htask, href⟩ := mem_flatMap.1 href
      exact hrefs task htask ref href
  · exact fun _ _ => ⟨c, rfl⟩
  · exact fun wal _ => hlogs wal

/-- A step of a commit or a rollback that does not log a record. -/
lemma Move.task {c' : Closing}
    (hphase : s.phase i = .closing c) (hlogging : s.logging act = none) (happ : c'.app = c.app)
    (hsame : s.head.Same h)
    (hrefs : ∀ task ∈ c'.tasks, ∀ ref ∈ task.refs, task ∈ c.tasks ∨ ref ∈ c.app.refs)
    (hlogs : ∀ wal, c.LogsSeries wal → c'.LogsSeries wal) :
    Move s act (s.set i (.closing c') h) := by
  refine .work i _ h hlogging hsame ?_ ?_ ?_ ?_
  · rw [hphase]
    exact congrArg HeadAppender.seriesRefs happ
  · intro ref href
    rw [hphase]
    refine .inl (mem_append.2 ?_)
    rcases mem_append.1 href with href | href
    · rw [happ] at href
      exact .inl href
    obtain ⟨task, htask, href⟩ := mem_flatMap.1 href
    exact (hrefs task htask ref href).symm.imp_right fun hmem =>
      mem_flatMap.2 ⟨task, hmem, href⟩
  · exact fun _ _ => ⟨c', rfl⟩
  · rw [hphase]
    exact hlogs

/-- A step that is not about the log. -/
lemma Move.pop {c' : Closing} {ok : Bool} {task : Task}
    (hphase : s.phase i = .closing c) (htasks : c.tasks = task :: c'.tasks)
    (hlog : task.isLog = false) (happ : c'.app = c.app) (hsame : s.head.Same h) :
    Move s (.task i ok) (s.set i (.closing c') h) := by
  refine .task hphase ?_ happ hsame ?_ ?_
  · cases ok with
    | false => rfl
    | true =>
      simp only [logging, hphase, htasks]
      cases task <;> first | rfl | cases hlog
  · intro t ht ref _
    rw [htasks]
    exact .inl (mem_cons_of_mem _ ht)
  rintro wal ⟨hown, hfirst⟩
  rw [htasks] at hown hfirst
  rw [find?_cons_of_neg (by simp [hlog])] at hfirst
  refine ⟨fun xs hmem => ?_, ?_⟩
  · rw [happ]
    exact hown xs (mem_cons_of_mem _ hmem)
  · rw [happ]
    exact hfirst

/-- Every step is a move. -/
theorem step_move {s s' : Appenders} (hstep : s.step act = some s') : Move s act s' := by
  cases step_cases hstep with
  | @appender i t pick h hphase hstart =>
    refine .work i _ _ rfl ?_ ?_ ?_ ?_ ?_
    · obtain ⟨hwal, hlast, hseries, hmem⟩ := hstart.same
      exact ⟨hwal, hseries, hlast.ge, fun ref => congrArg (fun mem => (mem ref).lset) hmem⟩
    · rw [hphase]
      rfl
    · intro ref href
      cases href
    · intro c hc
      rw [hphase] at hc
      cases hc
    · exact fun _ _ => trivial
  | @call i c a r hphase =>
    refine .work i _ _ rfl (.refl _) ?_ ?_ ?_ ?_
    · rw [hphase]
      rfl
    · intro ref href
      rw [hphase]
      exact .inl href
    · intro c hc
      rw [hphase] at hc
      cases hc
    · exact fun _ _ => trivial
  | next hphase hnext => exact .next hphase hnext
  | @commit i a r hphase =>
    exact .close hphase rfl rfl (fun _ htask _ => a.mem_refs_of_mem_commitTasks htask)
      fun wal => a.logsSeries_commitTasks s.head wal _ _
  | @rollback i a r hphase =>
    exact .close hphase rfl rfl (fun _ htask _ => a.mem_refs_of_mem_rollbackTasks htask)
      fun wal => a.logsSeries_rollbackTasks s.head wal _ _
  | @task i ok c c' h hphase hnext =>
    simp only [Closing.next] at hnext
    split at hnext
    case h_1 => cases hnext
    case h_2 rec tasks htasks =>
      split at hnext
      case isTrue hok =>
        cases hnext
        subst hok
        exact .log i c rec tasks (by simp only [logging, hphase, htasks]) hphase htasks
      case isFalse hok =>
        obtain rfl : ok = false := by simpa using hok
        split at hnext
        · -- The rollback goes on without the other records.
          cases hnext
          refine .task hphase rfl rfl (.refl _) ?_ ?_
          · intro task htask ref _
            rw [htasks]
            exact .inl (mem_cons_of_mem _ (mem_of_mem_filter htask))
          intro wal hlogs
          refine ⟨fun xs hmem => ?_, .inr (.inr fun task hfind => ?_)⟩
          · exact absurd (of_mem_filter hmem) (by simp [Task.isLog])
          · have hnot := of_mem_filter (mem_of_find?_eq_some hfind)
            simp [find?_some hfind] at hnot
        · cases hnext
          refine .task hphase rfl rfl (.refl _) ?_ ?_
          · exact fun task htask ref href =>
              .inr (c.app.mem_refs_of_mem_rollbackTasks htask href)
          · exact fun wal _ => c.app.logsSeries_rollbackTasks s.head wal _ _
    case h_3 x tasks htasks =>
      cases hnext
      exact .pop hphase htasks rfl rfl (c.app.same_commitTurn ⟨s.head, _, _⟩ x)
    case h_4 ref m tasks htasks =>
      cases hnext
      exact .pop hphase htasks rfl rfl (.update _ ref _ rfl)
    case h_5 ref tasks htasks =>
      cases hnext
      exact .pop hphase htasks rfl rfl (.update _ ref _ rfl)
    case h_6 tasks htasks =>
      cases hnext
      refine .pop hphase htasks rfl rfl ?_
      rw [HeadAppender.closeAppend]
      split <;> exact ⟨rfl, rfl, le_rfl, fun _ => rfl⟩
  | gc href => exact .gc _ _ _ rfl href

end Appenders

end Prometheus.Tsdb
