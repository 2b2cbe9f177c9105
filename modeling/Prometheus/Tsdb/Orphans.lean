import Prometheus.Tsdb.AppenderMoves

/-!
# Samples in series that are gone

The garbage collection removes a series without chunks, unless it is pending. An appender that has
found a series still has it in hand after that, and commits its samples to a series that nobody
finds any more.

A series should be pending from the lookup to the commit. But it is marked only after the lookup,
when a float or a float histogram is accepted; not at all when a histogram is accepted; and it is
unmarked by whichever appender is done with it first.

An appender holds a series from the moment in which a call that appends a sample has found it, until
the sample is committed or dropped (`Phase.held`). As long as each check of the garbage collection
finds a chunk in a series that is held, or that it is pending, what is held is registered: a call
finds only registered series, or creates one, and everything else an appender does leaves it with
series that it held before (`held_step`). So no sample is stored in a series that is gone
(`stored_registered`).
-/

namespace Prometheus.Tsdb

open GoInt Record Transition List

/-- Whether `insert` adds the sample to the out-of-order chunk. -/
def HeadSeries.insertOK (s : HeadSeries) (t : ℤ) (v : SampleValue) (oooCapMax : ℤ) : Bool :=
  match (s.chunks.ooo.bind (·.oooHeadChunk)).filter (·.samples.length ≠ oooCapMax) with
  | none => true
  | some c => (oooInsert c.samples t v).isSome

/-- Whether the commit of a sample stores it in its series. -/
def HeadAppender.commitStores (a : HeadAppender) (opts : HeadOptions) (t : ℤ) (v : SampleValue)
    (s : HeadSeries) : Bool :=
  match s.appendableValue t v a.headMaxt a.minValidTime a.oooTimeWindow with
  | .error _ => false
  | .ok true => s.insertOK t v opts.outOfOrderCapMax
  | .ok false => (s.append opts.rules t v).1

/-! ### The series that an appender holds -/

/-- The refs of the samples that have been accepted. -/
def HeadAppender.sampleRefs (a : HeadAppender) : List ℕ :=
  a.commitOrder.map (·.ref)

/-- The series in which a call is about to append a sample, when it has the lock. -/
def Progress.sampleRefs : Progress → List ℕ
  | lock _ (.updateMetadata _) => []
  | lock sref _ => [sref]
  | _ => []

def Task.sampleRefs : Task → List ℕ
  | commit x => [x.ref]
  | _ => []

/-- The series for which an appender has a sample, or may have one as soon as it gets the lock. -/
def Phase.held : Phase → List ℕ
  | absent => []
  | active a p => a.sampleRefs ++ p.sampleRefs
  | closing c => c.tasks.flatMap Task.sampleRefs

section Held

variable {a : HeadAppender} {h : Head} {ref : ℕ}

lemma HeadAppender.mem_sampleRefs :
    ref ∈ a.sampleRefs ↔ ref ∈ a.samples.map (·.ref) ∨ ref ∈ a.histograms.map (·.ref) ∨
      ref ∈ a.floatHistograms.map (·.ref) := by
  simp [sampleRefs, commitOrder, RefValue.map]

lemma HeadAppender.mem_sampleRefs_buffer (x : RefValue SampleValue)
    (href : ref ∈ (a.buffer x).sampleRefs) : ref ∈ a.sampleRefs ∨ ref = x.ref := by
  obtain ⟨r, t, v⟩ := x
  rw [mem_sampleRefs] at href ⊢
  cases v <;>
    simp only [buffer, seen, map_append, map_cons, map_nil, mem_append, mem_singleton] at href ⊢ <;>
    tauto

/-- A series that is looked for is registered then, and no sample is accepted. -/
lemma HeadAppender.held_resolve {lset : List Label} {r : Except AppendError (ℕ × Bool)}
    {a' : HeadAppender} {h' : Head} (hr : a.resolve h ref lset = (r, a', h')) :
    a'.sampleRefs = a.sampleRefs ∧ ∀ sref created, r = .ok (sref, created) → sref ∈ h'.series := by
  rcases a.resolve_cases h ref lset with
    ⟨err, heq⟩ | ⟨err, heq⟩ | ⟨sref, hsref, heq⟩ | ⟨lset', -, heq⟩ <;> rw [heq] at hr <;> cases hr
  · exact ⟨rfl, fun _ _ hok => by cases hok⟩
  · exact ⟨rfl, fun _ _ hok => by cases hok⟩
  · refine ⟨rfl, fun sref' created hok => ?_⟩
    cases hok
    exact hsref
  · refine ⟨rfl, fun sref' created hok => ?_⟩
    cases hok
    simp [Head.create]

/-- A call finds its series among the registered ones, or registers it. It accepts no sample yet. -/
lemma AppendCall.held_find (c : AppendCall) :
    (c.find a h).2.1.sampleRefs = a.sampleRefs ∧
      ∀ ref ∈ (c.find a h).1.sampleRefs, ref ∈ (c.find a h).2.2.series := by
  cases c with
  | append ref lset t v =>
    rw [AppendCall.find]
    split
    · exact ⟨rfl, by simp [Progress.sampleRefs]⟩
    rcases hr : a.resolve h ref lset with ⟨err | ⟨sref, created⟩, a', h'⟩ <;>
      obtain ⟨hsame, hmem⟩ := HeadAppender.held_resolve hr
    · exact ⟨hsame, by simp [Progress.sampleRefs]⟩
    · exact ⟨hsame, by simpa [Progress.sampleRefs] using hmem sref created rfl⟩
  | appendHistogram ref lset t hist fh =>
    rw [AppendCall.find]
    split
    · exact ⟨rfl, by simp [Progress.sampleRefs]⟩
    rcases hr : a.resolve h ref lset with ⟨err | ⟨sref, created⟩, a', h'⟩ <;>
      obtain ⟨hsame, hmem⟩ := HeadAppender.held_resolve hr
    · exact ⟨hsame, by simp [Progress.sampleRefs]⟩
    · exact ⟨hsame, by simpa [Progress.sampleRefs] using hmem sref created rfl⟩
  | updateMetadata ref lset m =>
    rw [AppendCall.find]
    split <;> exact ⟨rfl, by simp [Progress.sampleRefs]⟩
  | appendExemplar ref lset e =>
    refine ⟨?_, by simp [AppendCall.find, returned, Progress.sampleRefs]⟩
    rw [AppendCall.find, HeadAppender.appendExemplar]
    split
    · rfl
    split
    · rfl
    dsimp only
    split <;> rfl
  | setOptions discard => exact ⟨rfl, by simp [AppendCall.find, Progress.sampleRefs]⟩

/-- Under the lock, a sample is accepted for the series or not. -/
lemma Locked.held_run (work : Locked) (sref : ℕ)
    (href : ref ∈ (work.run a h sref).2.1.sampleRefs ++ (work.run a h sref).1.sampleRefs) :
    ref ∈ a.sampleRefs ++ (Progress.lock sref work).sampleRefs := by
  -- What a call has accepted when it has returned.
  have hdone : ∀ {r : Except AppendError ℕ} {a' : HeadAppender} {h' : Head},
      (a'.sampleRefs = a.sampleRefs ∨ ∃ x : RefValue SampleValue, x.ref = sref ∧ a' = a.buffer x) →
      ref ∈ (returned (r, a', h')).2.1.sampleRefs ++ (returned (r, a', h')).1.sampleRefs →
        ref ∈ a.sampleRefs ++ [sref] := by
    intro r a' h' ha' hmem
    have hmem : ref ∈ a'.sampleRefs := by simpa [returned, Progress.sampleRefs] using hmem
    rcases ha' with hsame | ⟨x, rfl, rfl⟩
    · exact mem_append_left _ (hsame ▸ hmem)
    · rw [mem_append, mem_singleton]
      exact HeadAppender.mem_sampleRefs_buffer x hmem
  cases work with
  | append ref' lset t v =>
    rw [Locked.run] at href
    split at href
    · exact mem_append_left _ (by simpa [Progress.sampleRefs] using href)
    rcases a.appendLocked_cases h sref t v with ⟨err, heq⟩ | heq
    · rw [heq] at href
      exact hdone (.inl rfl) href
    · rw [heq] at href
      exact hdone (.inr ⟨⟨sref, t, .float v⟩, rfl, rfl⟩) href
  | appendHistogram created t hist fh =>
    rw [Locked.run] at href
    rcases hist with _ | hist
    · rcases fh with _ | fh <;> rw [HeadAppender.appendHistograms] at href
      · exact hdone (.inl (show (a.seen t).sampleRefs = _ from rfl)) href
      rcases a.appendFloatHistogramLocked_cases h sref created t fh with ⟨err, heq⟩ | heq
      · rw [heq] at href
        exact hdone (.inl rfl) href
      · rw [heq] at href
        exact hdone (.inr ⟨⟨sref, t, .floatHistogram fh⟩, rfl, rfl⟩) href
    · rw [HeadAppender.appendHistograms] at href
      rcases a.appendHistogramLocked_cases h sref created t hist with ⟨err, heq⟩ | heq
      · rw [heq] at href
        exact hdone (.inl rfl) href
      · rw [heq] at href
        exact hdone (.inr ⟨⟨sref, t, .histogram hist⟩, rfl, rfl⟩) href
  | updateMetadata m =>
    rw [Locked.run] at href
    refine mem_append_left _ ?_
    have href : ref ∈ (if (h.mem sref).metadata = some m then a
        else { a with metadata := a.metadata ++ [(sref, m)] }).sampleRefs := by
      simpa [Progress.sampleRefs] using href
    split at href <;> exact href

lemma HeadAppender.held_logTasks (a : HeadAppender) (h : Head) :
    (a.logTasks h).flatMap Task.sampleRefs = [] := by
  rw [logTasks]
  split <;> simp [flatMap_map, Task.sampleRefs]

lemma HeadAppender.held_closeTasks (a : HeadAppender) :
    a.closeTasks.flatMap Task.sampleRefs = [] := by
  simp [closeTasks, flatMap_map, Task.sampleRefs]

lemma HeadAppender.held_rollbackTasks (a : HeadAppender) (h : Head) :
    (a.rollbackTasks h).flatMap Task.sampleRefs = [] := by
  simp [rollbackTasks, held_logTasks, held_closeTasks, flatMap_map, Task.sampleRefs]

/-- What is committed are the samples that were accepted. -/
lemma HeadAppender.held_commitTasks (a : HeadAppender) (h : Head) :
    (a.commitTasks h).flatMap Task.sampleRefs = a.sampleRefs := by
  simp only [commitTasks, flatMap_append, held_logTasks, held_closeTasks, flatMap_map,
    Task.sampleRefs, nil_append, append_nil]
  rw [← map_eq_flatMap, flatMap_eq_nil_iff.2 fun _ _ => rfl, append_nil]
  rfl

/-- What is left to commit was there to commit before. -/
lemma Closing.held_next {c c' : Closing} {h' : Head} {ok : Bool}
    (hnext : next (c, h) ok = some (c', h')) (href : ref ∈ c'.tasks.flatMap Task.sampleRefs) :
    ref ∈ c.tasks.flatMap Task.sampleRefs := by
  cases htasks : c.tasks with
  | nil => simp [next, htasks] at hnext
  | cons task tasks =>
    have hpop : c'.tasks = tasks → ref ∈ (task :: tasks).flatMap Task.sampleRefs := by
      intro heq
      rw [flatMap_cons, ← heq]
      exact mem_append_right _ href
    cases task with
    | log rec =>
      simp only [next, htasks] at hnext
      split_ifs at hnext
      · cases hnext
        exact hpop rfl
      · cases hnext
        obtain ⟨task, htask, href⟩ := mem_flatMap.1 href
        exact mem_flatMap.2 ⟨task, mem_cons_of_mem _ (mem_filter.1 htask).1, href⟩
      · cases hnext
        rw [c.app.held_rollbackTasks] at href
        cases href
    | _ =>
      simp only [next, htasks, Option.some.injEq, Prod.mk.injEq] at hnext
      exact hpop (by rw [← hnext.1])

end Held

variable {s : Appenders} {act : Action}

namespace Appenders

/-- The series in which a step stores a sample. -/
def stores (s : Appenders) : Action → Option ℕ
  | .task i _ =>
    match s.phase i with
    | .closing c =>
      match c.tasks with
      | .commit x :: _ =>
        if c.app.commitStores s.head.opts x.t x.v (s.head.mem x.ref) then some x.ref else none
      | _ => none
    | _ => none
  | _ => none

/-- A series is registered, under its ID and under its labels. -/
def Registered (s : Appenders) (ref : ℕ) : Prop :=
  s.head.getByID ref = some ref ∧ s.head.getByHash (s.head.mem ref).lset = some ref

instance (s : Appenders) (ref : ℕ) : Decidable (s.Registered ref) :=
  inferInstanceAs (Decidable (_ ∧ _))

/-- A check finds a chunk in the series, after it has truncated the old ones, or that it is pending.
-/
def checkKeeps (s : Appenders) : Action → Bool
  | .gc ref mint minOOOMmapRef =>
    ((s.head.mem ref).truncateChunksBefore mint minOOOMmapRef).keeps
  | _ => true

/-- The series that a check is about. -/
def checked : Action → Option ℕ
  | .gc ref _ _ => some ref
  | _ => none

/-- A check keeps a series that an appender holds. -/
def Protects (s : Appenders) (act : Action) : Prop :=
  ∀ ref ∈ checked act, ∀ i, ref ∈ (s.phase i).held → s.checkKeeps act = true

lemma held_of_stores {ref : ℕ} (h : s.stores act = some ref) : ∃ i, ref ∈ (s.phase i).held := by
  cases act with
  | task i ok =>
    rw [stores] at h
    split at h
    case h_2 => cases h
    case h_1 c hphase =>
      split at h
      case h_2 => cases h
      case h_1 x tasks htasks =>
        split at h
        · cases h
          refine ⟨i, ?_⟩
          rw [hphase, Phase.held, htasks, flatMap_cons]
          exact mem_append_left _ (mem_singleton_self _)
        · cases h
  | _ => cases h

/-- Registered series have different labels, and the series that an appender holds are registered.
-/
structure Registry (s : Appenders) : Prop where
  le : ∀ ref ∈ s.head.series, ref ≤ s.head.lastSeriesID
  unique : ∀ r ∈ s.head.series, ∀ r' ∈ s.head.series,
    (s.head.mem r).lset = (s.head.mem r').lset → r = r'
  held : ∀ i, ∀ ref ∈ (s.phase i).held, ref ∈ s.head.series

/-- A series that an appender holds after a step was held before, or is registered. -/
lemma held_step {s' : Appenders} (hstep : s.step act = some s') (i ref : ℕ)
    (href : ref ∈ (s'.phase i).held) : ref ∈ (s.phase i).held ∨ ref ∈ s'.head.series := by
  -- A step changes the phase of one appender.
  have hset : ∀ {j : ℕ} {p : Phase} {h : Head}, ref ∈ ((s.set j p h).phase i).held →
      (ref ∈ p.held → ref ∈ (s.phase j).held ∨ ref ∈ h.series) →
        ref ∈ (s.phase i).held ∨ ref ∈ h.series := by
    intro j p h href hp
    by_cases hj : i = j
    · subst hj
      rw [phase_set_self] at href
      exact hp href
    · rw [phase_set_of_ne s hj] at href
      exact .inl href
  cases step_cases hstep with
  | appender hphase hstart =>
    refine hset href fun hin => ?_
    cases hin
  | call hphase =>
    refine hset href fun hin => .inl ?_
    rw [hphase]
    exact hin
  | @next j a a' p p' h' hphase hnext =>
    refine hset href fun hin => ?_
    rw [hphase]
    cases p with
    | done r => cases hnext
    | lock sref work =>
      have heq : work.run a s.head sref = (p', a', h') := Option.some.inj hnext
      refine .inl (work.held_run sref (h := s.head) ?_)
      rw [heq]
      exact hin
    | call c =>
      have heq : c.find a s.head = (p', a', h') := Option.some.inj hnext
      have hfind := c.held_find (a := a) (h := s.head)
      rw [heq] at hfind
      rcases mem_append.1 hin with hin | hin
      · exact .inl (mem_append_left _ (hfind.1 ▸ hin))
      · exact .inr (hfind.2 ref hin)
  | @commit j a r hphase =>
    refine hset href fun hin => .inl ?_
    rw [Phase.held, a.held_commitTasks] at hin
    rw [hphase]
    exact mem_append_left _ hin
  | @rollback j a r hphase =>
    refine hset href fun hin => ?_
    rw [Phase.held, a.held_rollbackTasks] at hin
    cases hin
  | task hphase hnext =>
    refine hset href fun hin => .inl ?_
    rw [hphase]
    exact Closing.held_next hnext hin
  | gc _ => exact .inl href

namespace Registry

variable {s' : Appenders} (hs : Registry s)
include hs

lemma registered (ref : ℕ) (hmem : ref ∈ s.head.series) : s.Registered ref := by
  refine ⟨if_pos hmem, ?_⟩
  have hfound : (s.head.getByHash (s.head.mem ref).lset).isSome :=
    find?_isSome.2 ⟨ref, hmem, by simp⟩
  obtain ⟨r, hr⟩ := Option.isSome_iff_exists.1 hfound
  have hlset : (s.head.mem r).lset = (s.head.mem ref).lset := by
    simpa using find?_some hr
  rw [hr, hs.unique r (Head.mem_of_getByHash hr) ref hmem hlset]

/-- The steps of appenders leave what is registered. -/
lemma of_same (hseries : s'.head.series = s.head.series)
    (hlast : s.head.lastSeriesID ≤ s'.head.lastSeriesID)
    (hlset : ∀ ref, (s'.head.mem ref).lset = (s.head.mem ref).lset)
    (hheld : ∀ i, ∀ ref ∈ (s'.phase i).held, ref ∈ (s.phase i).held ∨ ref ∈ s'.head.series) :
    Registry s' := by
  refine ⟨?_, ?_, fun i ref href => ?_⟩
  · rw [hseries]
    exact fun ref href => (hs.le ref href).trans hlast
  · rw [hseries]
    simp only [hlset]
    exact hs.unique
  · rcases hheld i ref href with hin | hin
    · rw [hseries]
      exact hs.held i ref hin
    · exact hin

/-- A series is created, with labels that no other one has. -/
lemma of_adds {lset : List Label} (hadds : s.head.Adds lset s'.head)
    (hheld : ∀ i, ∀ ref ∈ (s'.phase i).held,
      ref ∈ (s.phase i).held ∨ ref ∈ s'.head.series) : Registry s' := by
  have hfresh : ∀ r ∈ s.head.series, r ≠ s.head.lastSeriesID + 1 := by
    rintro r hr rfl
    exact absurd (hs.le _ hr) (by simp)
  have hlabels : ∀ r ∈ s.head.series, (s'.head.mem r).lset ≠ lset := by
    intro r hr heq
    rw [hadds.lset r (hfresh r hr)] at heq
    exact absurd heq (by simpa using find?_eq_none.1 hadds.absent r hr)
  have hmem : ∀ r, r ∈ s'.head.series ↔ r ∈ s.head.series ∨ r = s.head.lastSeriesID + 1 := by
    intro r
    rw [hadds.series, mem_append, mem_singleton]
  refine ⟨?_, ?_, fun i ref href => ?_⟩
  · intro r hr
    rcases (hmem r).1 hr with hr | rfl
    · exact (hs.le r hr).trans (hadds.lastSeriesID ▸ Nat.le_succ _)
    · exact hadds.lastSeriesID.ge
  · intro r hr r' hr' heq
    rcases (hmem r).1 hr with hr | rfl
    · rcases (hmem r').1 hr' with hr' | rfl
      · rw [hadds.lset r (hfresh r hr), hadds.lset r' (hfresh r' hr')] at heq
        exact hs.unique r hr r' hr' heq
      · rw [hadds.lset_new] at heq
        exact absurd heq (hlabels r hr)
    · rcases (hmem r').1 hr' with hr' | rfl
      · rw [hadds.lset_new] at heq
        exact absurd heq.symm (hlabels r' hr')
      · rfl
  · rcases hheld i ref href with hin | hin
    · exact (hmem ref).2 (.inl (hs.held i ref hin))
    · exact hin

/-- Every step keeps the registry, if it is not a check that removes a series that is held. -/
lemma step (hprotects : s.Protects act) (hstep : s.step act = some s') : Registry s' := by
  have hheld := held_step hstep
  cases step_move hstep with
  | work i p h _ hsame => exact hs.of_same hsame.series hsame.lastSeriesID hsame.lset hheld
  | create i a a' p p' h lset _ _ hadds => exact hs.of_adds hadds hheld
  | log i c rec tasks => exact hs.of_same rfl le_rfl (fun _ => rfl) hheld
  | gc ref mint m heq href =>
    obtain ⟨-, hlast, hlset, hseries⟩ := s.head.gcCheck_spec ref mint m
    refine ⟨?_, ?_, fun i r hr => ?_⟩
    · intro r hr
      exact (hs.le r ((hseries r).1 hr).1).trans hlast.ge
    · intro r hr r' hr' heq
      rw [hlset, hlset] at heq
      exact hs.unique r ((hseries r).1 hr).1 r' ((hseries r').1 hr').1 heq
    · refine (hseries r).2 ⟨hs.held i r hr, ?_⟩
      rintro rfl
      subst heq
      exact hprotects r rfl i hr

end Registry

/-- A head whose registered series have different labels, and no appender yet. -/
structure Unused (s : Appenders) : Prop where
  phase : ∀ i, s.phase i = .absent
  le : ∀ ref ∈ s.head.series, ref ≤ s.head.lastSeriesID
  unique : ∀ r ∈ s.head.series, ∀ r' ∈ s.head.series,
    (s.head.mem r).lset = (s.head.mem r').lset → r = r'

lemma Unused.registry (hs : s.Unused) : Registry s := by
  refine ⟨hs.le, hs.unique, fun i ref href => ?_⟩
  rw [hs.phase i] at href
  cases href

/-- **No sample is orphaned**: in any run of appenders, whose steps are interleaved in any way with
each other and with the checks of the garbage collection, samples are only stored in series that are
registered, if each check of a series that an appender holds finds a chunk, or that the series is
pending. -/
theorem stored_registered (s : Appenders) (hs : s.Unused) (acts : List Action)
    (hprotects : Along Appenders.step Protects s acts) :
    Along Appenders.step (fun s act => ∀ ref ∈ s.stores act, s.Registered ref) s acts := by
  refine (along_congr (P := Registry) (fun s act s' hs hprotects => hs.step hprotects)
    (fun s act hs => ?_) hs.registry hprotects).2 (along_of_forall fun _ _ => trivial)
  refine iff_true_intro fun ref hstores => ?_
  obtain ⟨i, hheld⟩ := held_of_stores hstores
  exact hs.registered ref (hs.held i ref hheld)

/-- Two appenders have a sample for the same series. The first one rolls back, which unmarks the
series, it is removed, and the second one commits. -/
theorem orphaned_by_rollback :
    let lset : List Label := [⟨[97], [98]⟩]
    let acts : List Action := [.appender 0 (some 1) none, .appender 1 none none,
      .call 0 (.append 0 lset 1 5), .next 0, .next 0,
      .call 1 (.append 0 lset 2 6), .next 1, .next 1,
      .rollback 0, .task 0 true, .gc 1 0 0, .commit 1, .task 1 true, .task 1 true]
    (run Appenders.step ⟨Head.example, fun _ => .absent⟩ acts).isSome ∧
      ¬ Along Appenders.step (fun s act => ∀ ref ∈ s.stores act, s.Registered ref)
        ⟨Head.example, fun _ => .absent⟩ acts := by
  decide +kernel

/-- The first appender commits, and then the check finds its sample. -/
theorem stored_registered_two :
    let lset : List Label := [⟨[97], [98]⟩]
    let acts : List Action := [.appender 0 (some 1) none, .appender 1 none none,
      .call 0 (.append 0 lset 1 5), .next 0, .next 0,
      .call 1 (.append 0 lset 2 6), .next 1, .gc 1 0 0, .next 1,
      .commit 0, .task 0 true, .task 0 true, .task 0 true, .gc 1 0 0,
      .commit 1, .task 1 true, .task 1 true]
    (run Appenders.step ⟨Head.example, fun _ => .absent⟩ acts).isSome ∧
      Along Appenders.step (fun s act => ∀ ref ∈ s.stores act, s.Registered ref)
        ⟨Head.example, fun _ => .absent⟩ acts := by
  intro lset acts
  have hunused : Unused ⟨Head.example, fun _ => .absent⟩ := by
    refine ⟨fun _ => rfl, ?_, ?_⟩
    · intro ref href
      cases href
    · intro r hr
      cases hr
  have hkeeps : Along Appenders.step (fun s act => s.checkKeeps act = true)
      ⟨Head.example, fun _ => .absent⟩ acts := by
    decide +kernel
  exact ⟨by decide +kernel, stored_registered _ hunused acts
    (hkeeps.mono fun s act hkeeps ref _ i _ => hkeeps)⟩

end Appenders

end Prometheus.Tsdb
