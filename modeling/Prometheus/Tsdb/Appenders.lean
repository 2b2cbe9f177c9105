import Prometheus.Lib.Transition
import Prometheus.Tsdb.Commit

/-!
# Appenders that run at the same time

Any number of appenders work on one head, while the garbage collection goes over its series. What is
atomic is the search for a series, which may create it, what is done under the lock of a series, and
the logging of one record. Between these steps, others can take theirs.

A call is cut into its steps by `AppendCall.find` and `Locked.run`; `Commit` and `Rollback` are the
lists of their steps (`commitTasks` and `rollbackTasks`). That one appender alone does with these
steps what it does in `HeadAppender`, and nothing else, is proved in `finish_call`, `runs_commit`
and `runs_rollback`: the heads in which its steps can end (`Ends`) are those that `commit` and
`rollback` can leave, where the log may refuse any record.
-/

namespace Prometheus.Tsdb

open GoInt Record List HeadAppender

/-! ### Calls in steps -/

/-- What a call has to do under the lock of the series that it has found. -/
inductive Locked
  | append (ref : ℕ) (lset : List Label) (t : ℤ) (v : BitVec 64)
  | appendHistogram (created : Bool) (t : ℤ) (h fh : Option Histogram)
  | updateMetadata (m : Metadata)

/-- How far a call has come. -/
inductive Progress
  /-- It has returned. -/
  | done (r : Except AppendError ℕ)
  /-- It has found its series, and waits for the lock. -/
  | lock (sref : ℕ) (work : Locked)
  /-- It starts, or goes on as another call. -/
  | call (c : AppendCall)

/-- The call has returned, with what it leaves. -/
def returned (o : Outcome ℕ) : Progress × HeadAppender × Head :=
  (.done o.1, o.2)

variable (a : HeadAppender)

variable (h : Head)

/-- A call up to the lock of its series. -/
def AppendCall.find : AppendCall → Progress × HeadAppender × Head
  | append ref lset t v =>
    -- Fail fast if OOO is disabled and the sample is out of bounds.
    if a.oooTimeWindow = 0 ∧ t < a.minValidTime then (.done (.error .outOfBounds), a, h)
    else
      match a.resolve h ref lset with
      | (.error err, a, h) => (.done (.error err), a, h)
      | (.ok (sref, _), a, h) => (.lock sref (.append ref lset t v), a, h)
  | appendHistogram ref lset t hist fh =>
    match a.checkHistograms h t hist fh with
    | .error err => (.done (.error err), a, h)
    | .ok () =>
      match a.resolve h ref lset with
      | (.error err, a, h) => (.done (.error err), a, h)
      | (.ok (sref, created), a, h) => (.lock sref (.appendHistogram created t hist fh), a, h)
  | updateMetadata ref lset m =>
    match (h.getByID ref).or (h.getByHash lset) with
    | none => (.done (.error (.unknownSeries ref lset)), a, h)
    | some sref => (.lock sref (.updateMetadata m), a, h)
  -- There is no lock of a series in the other calls.
  | appendExemplar ref lset e => returned (a.appendExemplar h ref lset e)
  | setOptions discard => (.done (.ok 0), { a with discardOutOfOrder := discard }, h)

/-- What a call does under the lock of the series. -/
def Locked.run (sref : ℕ) : Locked → Progress × HeadAppender × Head
  | append ref lset t v =>
    match HeadAppender.staleHistogram (h.mem sref) v with
    | some (hist, fh) => (.call (.appendHistogram ref lset t hist fh), a, h)
    | none => returned (a.appendLocked h sref t v)
  | appendHistogram created t hist fh => returned (a.appendHistograms h sref created t hist fh)
  | updateMetadata m =>
    (.done (.ok sref),
      if (h.mem sref).metadata = some m then a
      else { a with metadata := a.metadata ++ [(sref, m)] }, h)

/-- The next step of a call, if it has not returned. -/
def Progress.next : Progress → Option (Progress × HeadAppender × Head)
  | done _ => none
  | lock sref work => some (work.run a h sref)
  | call c => some (c.find a h)

/-- Some steps of a call, without other steps between them. -/
def Progress.finish : ℕ → Progress × HeadAppender × Head → Progress × HeadAppender × Head
  | 0, s => s
  | n + 1, (p, a, h) =>
    match p.next a h with
    | none => (p, a, h)
    | some s => finish n s

lemma finish_returned (n : ℕ) (o : Outcome ℕ) : Progress.finish n (returned o) = returned o := by
  cases n <;> rfl

variable (h : Head)

lemma finish_appendHistogram (n ref : ℕ) (lset : List Label) (t : ℤ) (hist fh : Option Histogram) :
    Progress.finish (n + 2) (.call (.appendHistogram ref lset t hist fh), a, h) =
      returned (a.appendHistogram h ref lset t hist fh) := by
  simp only [Progress.finish, Progress.next, AppendCall.find, appendHistogram]
  cases a.checkHistograms h t hist fh with
  | error err => rfl
  | ok u =>
    rcases a.resolve h ref lset with ⟨err | ⟨sref, created⟩, a', h'⟩
    · rfl
    · exact finish_returned ..

/-- The steps of a call are the call. -/
theorem finish_call (c : AppendCall) :
    Progress.finish 4 (.call c, a, h) = returned (c.onHead a h) := by
  have hfirst : Progress.finish 4 (.call c, a, h) = Progress.finish 3 (c.find a h) := rfl
  cases c with
  | append ref lset t v =>
    rw [hfirst, AppendCall.find]
    simp only [AppendCall.onHead, append]
    split
    · rfl
    match a.resolve h ref lset with
    | (.error err, a', h') => rfl
    | (.ok (sref, created), a', h') =>
      simp only [Progress.finish, Progress.next, Locked.run]
      cases staleHistogram (h'.mem sref) v with
      | none => rfl
      | some p => exact finish_appendHistogram a' h' 0 ..
  | appendHistogram ref lset t hist fh => exact finish_appendHistogram a h 2 ..
  | appendExemplar ref lset e => rfl
  | updateMetadata ref lset m =>
    rw [hfirst, AppendCall.find]
    simp only [AppendCall.onHead, updateMetadata]
    cases (h.getByID ref).or (h.getByHash lset) with
    | none => rfl
    | some sref =>
      simp only [Progress.finish, Progress.next, Locked.run]
      split <;> rfl
  | setOptions discard => rfl

/-! ### Commit and Rollback in steps -/

/-- A step of `Commit` or `Rollback`. -/
inductive Task
  /-- A record is logged. -/
  | log (rec : WalRecord)
  /-- A sample is committed, under the lock of its series. -/
  | commit (x : RefValue SampleValue)
  | metadata (ref : ℕ) (m : Metadata)
  /-- A series is not pending any more. -/
  | unmark (ref : ℕ)
  /-- The append ID is closed. -/
  | close

def Task.isLog : Task → Bool
  | log _ => true
  | _ => false

namespace HeadAppender

/-- The appender with the buffers that `Rollback` has emptied. -/
def emptied : HeadAppender :=
  { a with samples := [], exemplars := [], histograms := [], metadata := [] }

/-- The records that `log` writes, if there is a log. -/
def logTasks : List Task :=
  if h.wal.isSome then a.logRecords.map .log else []

/-- The steps with which `Commit` and `Rollback` both end. -/
def closeTasks : List Task :=
  a.seriesRefs.map (fun x => .unmark x.1) ++ [.close]

/-- The steps of `Commit`. -/
def commitTasks : List Task :=
  a.logTasks h ++ a.commitOrder.map .commit ++ a.metadata.map (fun x => .metadata x.1 x.2) ++
    a.closeTasks

/-- The steps of `Rollback`. Only the series records are logged. -/
def rollbackTasks : List Task :=
  (a.samples.map (·.ref) ++ a.histograms.map (·.ref)).map .unmark ++ a.emptied.logTasks h ++
    a.closeTasks

end HeadAppender

/-- An appender that commits or rolls back, with what is left to do. -/
structure Closing where
  app : HeadAppender
  rollback : Bool
  tasks : List Task
  inOrderMint : ℤ
  inOrderMaxt : ℤ

namespace Closing

variable (s : Closing × Head)

/-- The next step. With `ok`, the log takes the record. -/
def next (ok : Bool) : Option (Closing × Head) :=
  let (c, h) := s
  match c.tasks with
  | [] => none
  | .log rec :: tasks =>
    if ok then some ({ c with tasks := tasks }, { h with wal := h.wal.map (· ++ [rec]) })
    else if c.rollback then some ({ c with tasks := tasks.filter fun x => !x.isLog }, h)
    else
      -- `Commit` falls back to `Rollback`.
      some ({ c with rollback := true, tasks := c.app.rollbackTasks h }, h)
  | .commit x :: tasks =>
    let acc := c.app.commitTurn id ⟨h, c.inOrderMint, c.inOrderMaxt⟩ x
    some ({ c with
      tasks := tasks
      inOrderMint := acc.inOrderMint
      inOrderMaxt := acc.inOrderMaxt }, acc.head)
  | .metadata ref m :: tasks =>
    some ({ c with tasks := tasks }, h.update ref fun s => { s with metadata := some m })
  | .unmark ref :: tasks =>
    some ({ c with tasks := tasks }, h.update ref fun s => { s with pendingCommit := false })
  | .close :: tasks =>
    some ({ c with tasks := tasks }, c.app.closeAppend
      (if c.rollback then h else h.updateMinMaxTime c.inOrderMint c.inOrderMaxt))

/-- Steps without other ones between them, until nothing is left to do. The result says whether
nothing was rolled back. -/
def Ends (s : Closing × Head) (o : Bool × Head) : Prop :=
  ∃ oks c, Transition.run next s oks = some (c, o.2) ∧ c.tasks = [] ∧ o.1 = !c.rollback

variable {o : Bool × Head} {s s' : Closing × Head}

lemma ends_iff_next (htasks : s.1.tasks ≠ []) :
    Ends s o ↔ ∃ ok s', next s ok = some s' ∧ Ends s' o := by
  constructor
  · rintro ⟨_ | ⟨ok, oks⟩, c, hrun, hdone, hok⟩
    · cases hrun
      exact absurd hdone htasks
    · obtain ⟨s', hnext, hrun⟩ := Transition.run_cons_eq_some.1 hrun
      exact ⟨ok, s', hnext, oks, c, hrun, hdone, hok⟩
  · rintro ⟨ok, s', hnext, oks, c, hrun, hdone, hok⟩
    exact ⟨ok :: oks, c, Transition.run_cons_eq_some.2 ⟨s', hnext, hrun⟩, hdone, hok⟩

/-- A step that does not depend on the log. -/
lemma ends_of_next (hnext : ∀ ok, next s ok = some s') : Ends s o ↔ Ends s' o := by
  have htasks : s.1.tasks ≠ [] := by
    intro hnil
    have hnone := hnext true
    rw [next, hnil] at hnone
    cases hnone
  rw [ends_iff_next htasks]
  simp only [hnext, Option.some.injEq, exists_eq_left', exists_const]

variable (a : HeadAppender) (rb : Bool) (tasks : List Task) (mint maxt : ℤ) (h : Head)

lemma ends_nil : Ends (⟨a, rb, [], mint, maxt⟩, h) o ↔ o = (!rb, h) := by
  constructor
  · rintro ⟨_ | ⟨ok, oks⟩, c, hrun, -, hok⟩
    · cases hrun
      exact Prod.ext hok rfl
    · obtain ⟨s', hnext, -⟩ := Transition.run_cons_eq_some.1 hrun
      cases hnext
  · rintro rfl
    exact ⟨[], _, rfl, rfl, rfl⟩

/-- Tasks that are done one after the other, in the states `st`. -/
lemma ends_foldl {α σ : Type} (task : α → Task) (f : σ → α → σ)
    (st : σ → List Task → Closing × Head)
    (hnext : ∀ s x tasks ok, next (st s (task x :: tasks)) ok = some (st (f s x) tasks))
    (xs : List α) (s : σ) (tasks : List Task) :
    Ends (st s (xs.map task ++ tasks)) o ↔ Ends (st (xs.foldl f s) tasks) o := by
  induction xs generalizing s with
  | nil => rfl
  | cons x xs ih => exact (ends_of_next (hnext s x _)).trans (ih _)

/-- A record is logged, or it cannot be logged. -/
lemma ends_log (rec : WalRecord) :
    Ends (⟨a, rb, .log rec :: tasks, mint, maxt⟩, h) o ↔
      Ends (if rb then (⟨a, true, tasks.filter fun x => !x.isLog, mint, maxt⟩, h)
          else (⟨a, true, a.rollbackTasks h, mint, maxt⟩, h)) o ∨
        Ends (⟨a, rb, tasks, mint, maxt⟩, { h with wal := h.wal.map (· ++ [rec]) }) o := by
  rw [ends_iff_next (cons_ne_nil _ _), Bool.exists_bool]
  cases rb <;> simp [next]

lemma log_zero (records : List WalRecord) : (h.log 0 records).2 = h := by
  simp [log_snd]

lemma log_cons (rec : WalRecord) (records : List WalRecord) (n : ℕ) :
    (Head.log { h with wal := h.wal.map (· ++ [rec]) } n records).2 =
      (h.log (n + 1) (rec :: records)).2 := by
  simp [log_snd, Function.comp_def]

/-- The records of a rollback. After one that cannot be logged, the others are left out. -/
lemma ends_log_rollback (records : List WalRecord)
    (htasks : tasks.filter (fun x => !x.isLog) = tasks) :
    Ends (⟨a, true, records.map .log ++ tasks, mint, maxt⟩, h) o ↔
      ∃ logged, Ends (⟨a, true, tasks, mint, maxt⟩, (h.log logged records).2) o := by
  induction records generalizing h with
  | nil => simp [log_snd]
  | cons rec records ih =>
    have hlogs : (records.map Task.log ++ tasks).filter (fun x => !x.isLog) = tasks := by
      rw [filter_append, htasks]
      simp [filter_eq_nil_iff, Task.isLog]
    rw [← Nat.or_exists_add_one, log_zero, map_cons, cons_append, ends_log, if_pos rfl, hlogs, ih]
    simp only [log_cons]

/-- The records of a commit. After one that cannot be logged, it falls back to a rollback. -/
lemma ends_log_commit (records : List WalRecord) (hwal : h.wal.isSome) :
    Ends (⟨a, false, records.map .log ++ tasks, mint, maxt⟩, h) o ↔
      ∃ logged, Ends (if (h.log logged records).1 then
          (⟨a, false, tasks, mint, maxt⟩, (h.log logged records).2)
        else (⟨a, true, a.rollbackTasks (h.log logged records).2, mint, maxt⟩,
          (h.log logged records).2)) o := by
  have hlog : ∀ (h : Head) (logged : ℕ) (records : List WalRecord), h.wal.isSome →
      (h.log logged records).1 = decide (records.length ≤ logged) := by
    intro h logged records hwal
    obtain ⟨wal, hwal⟩ := Option.isSome_iff_exists.1 hwal
    rw [Head.log, hwal]
  simp only [hlog h _ _ hwal, decide_eq_true_eq]
  induction records generalizing h with
  | nil => simp [log_snd]
  | cons rec records ih =>
    rw [← Nat.or_exists_add_one, log_zero, if_neg (by simp), map_cons, cons_append, ends_log,
      if_neg Bool.false_ne_true]
    refine or_congr_right ((ih _ (by simpa using hwal)).trans ?_)
    simp only [log_cons, length_cons, Nat.add_le_add_iff_right]

lemma filter_closeTasks : a.closeTasks.filter (fun x => !x.isLog) = a.closeTasks := by
  simp [closeTasks, filter_append, filter_map, Function.comp_def, Task.isLog]

lemma ends_closeTasks :
    Ends (⟨a, rb, a.closeTasks, mint, maxt⟩, h) o ↔ o = (!rb, a.closeAppend
      (if rb then a.unmarkCreatedSeriesAsPendingCommit h
        else (a.unmarkCreatedSeriesAsPendingCommit h).updateMinMaxTime mint maxt)) := by
  have hunmark := ends_foldl (o := o) .unmark _ (fun h tasks => (⟨a, rb, tasks, mint, maxt⟩, h))
    (fun _ _ _ _ => rfl) (a.seriesRefs.map (·.1)) h [.close]
  rw [map_map] at hunmark
  exact hunmark.trans ((ends_of_next fun _ => rfl).trans (ends_nil ..))

/-- The steps of a rollback are the rollback, with any number of records that the log takes. -/
theorem runs_rollback : Ends (⟨a, true, a.rollbackTasks h, mint, maxt⟩, h) o ↔
    ∃ logged, o = (false, (a.rollback logged h).2) := by
  set h' := unmark (a.samples.map (·.ref) ++ a.histograms.map (·.ref)) h with hh'
  have hwal : h'.wal = h.wal := by rw [hh', unmark_eq]
  have hrollback : ∀ logged, (a.rollback logged h).2 = a.closeAppend
      (a.unmarkCreatedSeriesAsPendingCommit (h'.log logged a.emptied.logRecords).2) := by
    intro logged
    rw [hh', unmark_append]
    rfl
  have hlog : Ends (⟨a, true, a.emptied.logTasks h ++ a.closeTasks, mint, maxt⟩, h') o ↔
      ∃ logged, Ends (⟨a, true, a.closeTasks, mint, maxt⟩,
        (h'.log logged a.emptied.logRecords).2) o := by
    rw [logTasks, ← hwal]
    split
    · exact ends_log_rollback a _ mint maxt h' _ (filter_closeTasks a)
    case isFalse hnone =>
      simp only [Head.log, Option.not_isSome_iff_eq_none.1 hnone, exists_const, nil_append]
  rw [rollbackTasks, append_assoc, ends_foldl .unmark _
    (fun h tasks => (⟨a, true, tasks, mint, maxt⟩, h)) (fun _ _ _ _ => rfl), ← unmark, ← hh', hlog]
  simp only [ends_closeTasks, hrollback, if_true, Bool.not_true]

/-- The steps of a commit are the commit: whatever it leaves, they can leave, and nothing else. -/
theorem runs_commit : Ends (⟨a, false, a.commitTasks h, Head.maxInt64, minInt64⟩, h) o ↔
    ∃ logged rollbackLogged, o = a.commit logged rollbackLogged h := by
  rw [commitTasks, append_assoc, append_assoc]
  set tasks := a.commitOrder.map Task.commit ++ (a.metadata.map (fun x => .metadata x.1 x.2) ++
    a.closeTasks) with htasks
  have hlog : Ends (⟨a, false, a.logTasks h ++ tasks, Head.maxInt64, minInt64⟩, h) o ↔
      ∃ logged, Ends (if (h.log logged a.logRecords).1 then
          (⟨a, false, tasks, Head.maxInt64, minInt64⟩, (h.log logged a.logRecords).2)
        else (⟨a, true, a.rollbackTasks (h.log logged a.logRecords).2, Head.maxInt64, minInt64⟩,
          (h.log logged a.logRecords).2)) o := by
    rw [logTasks]
    split
    case isTrue hwal => exact ends_log_commit a _ _ _ h _ hwal
    case isFalse hnone =>
      simp only [Head.log, Option.not_isSome_iff_eq_none.1 hnone, exists_const, nil_append, if_true]
  -- What comes after the log does not fail.
  have hcommit : ∀ h', Ends (⟨a, false, tasks, Head.maxInt64, minInt64⟩, h') o ↔
      o = (true, a.commitLogged h') := by
    intro h'
    rw [commitLogged, commit_loops, htasks, ends_foldl .commit (a.commitTurn id) (fun acc tasks =>
      (⟨a, false, tasks, acc.inOrderMint, acc.inOrderMaxt⟩, acc.head)) (fun _ _ _ _ => rfl)
        a.commitOrder ⟨h', Head.maxInt64, minInt64⟩]
    rw [ends_foldl (fun x : ℕ × Metadata => .metadata x.1 x.2) _ (fun h tasks =>
      (⟨a, false, tasks, _, _⟩, h)) (fun _ _ _ _ => rfl), ends_closeTasks]
    rfl
  rw [hlog]
  refine exists_congr fun logged => ?_
  simp only [commit]
  rcases h.log logged a.logRecords with ⟨_ | _, h'⟩
  · exact runs_rollback ..
  · exact (hcommit h').trans (exists_const ℕ).symm

end Closing

/-! ### The system -/

/-- Where an appender is. -/
inductive Phase
  | absent
  | active (a : HeadAppender) (p : Progress)
  | closing (c : Closing)

/-- The appender itself. -/
def Phase.app : Phase → Option HeadAppender
  | absent => none
  | active a _ => some a
  | closing c => some c.app

/-- The head and its appenders. -/
structure Appenders where
  head : Head
  phase : ℕ → Phase

/-- What the check of the garbage collection keeps a series for. -/
def HeadSeries.keeps (s : HeadSeries) : Bool :=
  s.chunks.mmappedChunks ≠ [] ∨ s.chunks.headChunks ≠ [] ∨ s.pendingCommit ∨
    s.chunks.ooo.any fun o => o.oooMmappedChunks ≠ [] ∨ o.oooHeadChunk.isSome

def HeadSeries.truncateChunksBefore (mint : ℤ) (minOOOMmapRef : ℕ) (s : HeadSeries) : HeadSeries :=
  { s with chunks := s.chunks.truncateChunksBefore mint minOOOMmapRef }

/-- `check` of `stripeSeries.gc`, for one series: truncate old chunks and check if any chunks left.
-/
def Head.gcCheck (h : Head) (ref : ℕ) (mint : ℤ) (minOOOMmapRef : ℕ) : Head :=
  let h := h.update ref (·.truncateChunksBefore mint minOOOMmapRef)
  if (h.mem ref).keeps then h
  else
    -- The series is gone entirely.
    { h with series := h.series.filter (· ≠ ref) }

/-- The steps of the system. `i` is the number of an appender. -/
inductive Action
  /-- An appender is created, by an `initAppender` in an uninitialized head. -/
  | appender (i : ℕ) (t : Option ℤ) (pick : Option ℕ)
  | call (i : ℕ) (c : AppendCall)
  /-- The next step of a call. -/
  | next (i : ℕ)
  | commit (i : ℕ)
  | rollback (i : ℕ)
  /-- The next step of `Commit` or `Rollback`. With `ok`, the log takes the record. -/
  | task (i : ℕ) (ok : Bool)
  | gc (ref : ℕ) (mint : ℤ) (minOOOMmapRef : ℕ)

namespace Appenders

/-- An appender comes to another phase. -/
def set (s : Appenders) (i : ℕ) (p : Phase) (h : Head) : Appenders :=
  ⟨h, Function.update s.phase i p⟩

def step (s : Appenders) : Action → Option Appenders
  | .appender i t pick =>
    match s.phase i with
    | .absent =>
      let h := match t with
        | none => s.head
        | some t => s.head.initTime t
      some (s.set i (.active (h.appender pick).1 (.done (.ok 0))) (h.appender pick).2)
    | _ => none
  | .call i c =>
    match s.phase i with
    | .active a (.done _) => some (s.set i (.active a (.call c)) s.head)
    | _ => none
  | .next i =>
    match s.phase i with
    | .active a p => (p.next a s.head).map fun (p, a, h) => s.set i (.active a p) h
    | _ => none
  | .commit i =>
    match s.phase i with
    | .active a (.done _) =>
      some (s.set i (.closing ⟨a, false, a.commitTasks s.head, Head.maxInt64, minInt64⟩) s.head)
    | _ => none
  | .rollback i =>
    match s.phase i with
    | .active a (.done _) =>
      some (s.set i (.closing ⟨a, true, a.rollbackTasks s.head, Head.maxInt64, minInt64⟩) s.head)
    | _ => none
  | .task i ok =>
    match s.phase i with
    | .closing c => (Closing.next (c, s.head) ok).map fun (c, h) => s.set i (.closing c) h
    | _ => none
  | .gc ref mint minOOOMmapRef =>
    if ref ∈ s.head.series then some { s with head := s.head.gcCheck ref mint minOOOMmapRef }
    else none

end Appenders

end Prometheus.Tsdb
