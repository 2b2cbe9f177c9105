import Prometheus.Tsdb.HeadAppend

/-!
# What the calls of an appender do

Every call of an appender is a sequence of events: a series is created, or refused by the callback,
a sample is accepted into a buffer, an integer histogram is refused. `AppendEvent.apply` says what
each event does to the appender and to the head, and `onHead_runs` that a call does nothing else.
Facts about runs of appenders are then proved event by event.
-/

namespace Prometheus.Tsdb

open GoInt Record List

/-- The series to which `AppendHistogram` refuses an integer histogram: it was found or created, and
the call fails. -/
def HeadAppender.refusesHistogram (a : HeadAppender) (h : Head) (ref : ℕ)
    (lset : List Label) (t : ℤ)
    (hist : Histogram) (fh : Option Histogram) : List ℕ :=
  match a.checkHistograms h t (some hist) fh, (a.resolve h ref lset).1,
    (a.appendHistogram h ref lset t (some hist) fh).1 with
  | .ok (), .ok (sref, _), .error _ => [sref]
  | _, _, _ => []

/-- The series to which a call refuses an integer histogram. -/
def AppendCall.refusedOnHead (a : HeadAppender) (h : Head) : AppendCall → List ℕ
  | append ref lset t v =>
    if a.oooTimeWindow = 0 ∧ t < a.minValidTime then []
    else
      match a.resolve h ref lset with
      | (.ok (sref, _), a, h) =>
        match HeadAppender.staleHistogram (h.mem sref) v with
        | some (some hist, fh) => a.refusesHistogram h ref lset t hist fh
        | _ => []
      | _ => []
  | appendHistogram ref lset t (some hist) fh => a.refusesHistogram h ref lset t hist fh
  | _ => []

/-- The series to which a call on what `Head.Appender` returned refuses an integer histogram. -/
def AppendCall.refused (c : AppendCall) (pick : Option ℕ) : Option HeadAppender → Head → List ℕ
  | some a, h => c.refusedOnHead a h
  | none, h =>
    match c.initHead h with
    | none => []
    | some h => c.refusedOnHead (h.appender pick).1 (h.appender pick).2

/-- The series to which some more calls refuse an integer histogram. -/
def AppendRun.refusals (pick : Option ℕ) : AppendRun → List AppendCall → List ℕ
  | _, [] => []
  | r, c :: cs => c.refused pick r.app r.head ++ refusals pick (r.next pick c) cs

/-- The series to which a sequence of calls refuses an integer histogram. -/
def Head.refusals (h : Head) (pick : Option ℕ) (calls : List AppendCall) : List ℕ :=
  AppendRun.refusals pick ⟨(h.newAppender pick).1, (h.newAppender pick).2, []⟩ calls

/-- An event in the course of a call. -/
inductive AppendEvent
  /-- A series is created. -/
  | create (lset : List Label)
  /-- The callback refuses a new series, and its ID is used up. -/
  | skipID
  /-- A sample is accepted into a buffer. -/
  | accept (x : RefValue SampleValue)
  /-- An integer histogram is refused. -/
  | refuse (ref : ℕ)
  /-- The last values of a series are preset for its first histogram. -/
  | preset (ref : ℕ) (created : Bool) (last lastFloat : Option Histogram)
  /-- The appender notes something besides samples. -/
  | note (a : HeadAppender)

namespace HeadAppender

/-- The same samples and new series, under the same conditions. -/
structure SameSamples (a a' : HeadAppender) : Prop where
  seriesRefs : a'.seriesRefs = a.seriesRefs
  samples : a'.samples = a.samples
  histograms : a'.histograms = a.histograms
  floatHistograms : a'.floatHistograms = a.floatHistograms
  minValidTime : a'.minValidTime = a.minValidTime
  headMaxt : a'.headMaxt = a.headMaxt
  oooTimeWindow : a'.oooTimeWindow = a.oooTimeWindow
  appendID : a'.appendID = a.appendID

/-- A sample in the buffer of its kind. -/
def buffer (a : HeadAppender) (x : RefValue SampleValue) : HeadAppender :=
  match x.v with
  | .float v => { a.seen x.t with samples := a.samples ++ [⟨x.ref, x.t, v⟩] }
  | .histogram h => { a.seen x.t with histograms := a.histograms ++ [⟨x.ref, x.t, h⟩] }
  | .floatHistogram fh =>
    { a.seen x.t with floatHistograms := a.floatHistograms ++ [⟨x.ref, x.t, fh⟩] }

end HeadAppender

variable (h : Head)

/-- The series at an address is pending. -/
def Head.mark (ref : ℕ) : Head :=
  h.update ref fun s => { s with pendingCommit := true }

/-- A new series with some labels. -/
def Head.create (lset : List Label) : Head :=
  { h with
    lastSeriesID := h.lastSeriesID + 1
    mem := Function.update h.mem (h.lastSeriesID + 1) (.new lset (h.lastSeriesID + 1) true)
    series := h.series ++ [h.lastSeriesID + 1] }

@[simp] lemma Head.create_mem_self (lset : List Label) :
    (h.create lset).mem (h.lastSeriesID + 1) = .new lset (h.lastSeriesID + 1) true :=
  Function.update_self ..

lemma Head.create_mem_of_ne {r : ℕ} (hne : r ≠ h.lastSeriesID + 1) (lset : List Label) :
    (h.create lset).mem r = h.mem r :=
  Function.update_of_ne hne ..

/-- The kinds of samples that mark their series. -/
def SampleValue.marks : SampleValue → Bool
  | .float _ => true
  | .histogram _ => false
  | .floatHistogram _ => true

namespace AppendEvent

/-- What an event does. -/
def apply : HeadAppender × Head → AppendEvent → HeadAppender × Head
  | (a, h), create lset =>
    ({ a with seriesRefs := a.seriesRefs ++ [(h.lastSeriesID + 1, lset)] }, h.create lset)
  | (a, h), skipID => (a, { h with lastSeriesID := h.lastSeriesID + 1 })
  | (a, h), accept x => (a.buffer x, if x.v.marks then h.mark x.ref else h)
  | (a, h), refuse ref => (a, h.mark ref)
  | (a, h), preset ref created last lastFloat =>
    (a, h.update ref (·.presetLast created last lastFloat))
  | (_, h), note a => (a, h)

/-- When an event can happen. -/
def Enabled : HeadAppender × Head → AppendEvent → Prop
  | (_, h), create lset => h.getByHash lset = none
  | _, skipID => True
  | (a, h), accept x => x.ref ∈ h.series ∧ (a.oooTimeWindow = 0 → a.minValidTime ≤ x.t)
  | (_, h), refuse ref => ref ∈ h.series
  | (_, h), preset ref _ _ _ => ref ∈ h.series
  | (a, _), note a' => a.SameSamples a'

variable (es : List AppendEvent)

/-- The accepted samples. -/
def accepted : List (RefValue SampleValue) :=
  es.filterMap fun
    | accept x => some x
    | _ => none

/-- The series to which an integer histogram was refused. -/
def refused : List ℕ :=
  es.filterMap fun
    | refuse ref => some ref
    | _ => none

end AppendEvent

open AppendEvent

/-- A sequence of events. -/
inductive Runs : HeadAppender × Head → List AppendEvent → HeadAppender × Head → Prop
  | nil (s : HeadAppender × Head) : Runs s [] s
  | cons {s s' : HeadAppender × Head} {e : AppendEvent} {es : List AppendEvent}
      (he : Enabled s e) (hes : Runs (apply s e) es s') : Runs s (e :: es) s'

variable {s s' : HeadAppender × Head} {es : List AppendEvent}

lemma Runs.single {e : AppendEvent} (he : Enabled s e) : Runs s [e] (apply s e) :=
  .cons he (.nil _)

lemma Runs.append {s'' : HeadAppender × Head} {es' : List AppendEvent}
    (h : Runs s es s') (h' : Runs s' es' s'') : Runs s (es ++ es') s'' := by
  induction h with
  | nil => exact h'
  | cons he _ ih => exact .cons he (ih h')

/-- What is kept by every event is kept by every sequence of events. -/
lemma Runs.induction {P : HeadAppender × Head → Prop}
    (hstep : ∀ s e, P s → Enabled s e → P (apply s e)) (h : Runs s es s') (hs : P s) : P s' := by
  induction h with
  | nil => exact hs
  | cons he _ ih => exact ih (hstep _ _ hs he)

/-! ### Calls as events -/

variable {a a' : HeadAppender} {h h' : Head} {sref ref : ℕ} {lset : List Label} {created : Bool}

lemma Head.mem_of_getByID (hs : h.getByID ref = some sref) : sref = ref ∧ ref ∈ h.series := by
  rw [Head.getByID] at hs
  split at hs
  case isTrue hmem =>
    cases hs
    exact ⟨rfl, hmem⟩
  case isFalse => cases hs

lemma Head.mem_of_getByHash (hs : h.getByHash lset = some ref) : ref ∈ h.series :=
  mem_of_find?_eq_some hs

namespace HeadAppender

variable (a h ref lset)

/-- Looking for a series fails, or the callback refuses it, or it is found or created. -/
lemma resolve_cases : (∃ err, a.resolve h ref lset = (.error err, a, h)) ∨
      (∃ err, a.resolve h ref lset = (.error err, apply (a, h) .skipID)) ∨
      (∃ sref ∈ h.series, a.resolve h ref lset = (.ok (sref, false), a, h)) ∨
      ∃ lset', h.getByHash lset' = none ∧
        a.resolve h ref lset = (.ok (h.lastSeriesID + 1, true), apply (a, h) (.create lset')) := by
  rw [resolve]
  cases hid : h.getByID ref with
  | some sref =>
    obtain ⟨rfl, hmem⟩ := Head.mem_of_getByID hid
    exact .inr (.inr (.inl ⟨sref, hmem, rfl⟩))
  | none =>
    simp only [getOrCreate]
    generalize (lset.filter fun l => l.value ≠ []) = lset'
    split
    · exact .inl ⟨_, rfl⟩
    split
    · exact .inl ⟨_, rfl⟩
    rw [Head.getOrCreate]
    cases hhash : h.getByHash lset' with
    | some sref => exact .inr (.inr (.inl ⟨sref, Head.mem_of_getByHash hhash, rfl⟩))
    | none =>
      have hsame : Head.getByHash { h with lastSeriesID := h.lastSeriesID + 1 } lset' = none :=
        hhash
      simp only [Head.getOrCreateWithID, hsame]
      cases hpre : h.opts.preCreation lset' with
      | some err => exact .inr (.inl ⟨_, rfl⟩)
      | none => exact .inr (.inr (.inr ⟨lset', hhash, rfl⟩))

variable {a h ref lset} (hr : a.resolve h ref lset = (.ok (sref, created), a', h'))
include hr

/-- Looking for a series succeeds: it is there, and was found or created. -/
lemma resolve_ok : (sref ∈ h.series ∧ created = false ∧ a' = a ∧ h' = h) ∨
      ∃ lset', h.getByHash lset' = none ∧ sref = h.lastSeriesID + 1 ∧
        (a', h') = apply (a, h) (.create lset') := by
  rcases resolve_cases a h ref lset with
    ⟨err, heq⟩ | ⟨err, heq⟩ | ⟨s, hmem, heq⟩ | ⟨lset', hnone, heq⟩ <;> rw [heq] at hr <;> cases hr
  · exact .inl ⟨hmem, rfl, rfl, rfl⟩
  · exact .inr ⟨lset', hnone, rfl, rfl⟩

/-- The events of looking for a series: at most a creation. -/
lemma resolve_runs :
    sref ∈ h'.series ∧ a'.oooTimeWindow = a.oooTimeWindow ∧ a'.minValidTime = a.minValidTime ∧
      h'.opts = h.opts ∧
      ∃ es, Runs (a, h) es (a', h') ∧ accepted es = [] ∧ refused es = [] := by
  rcases resolve_ok hr with ⟨hmem, -, rfl, rfl⟩ | ⟨lset', hnone, rfl, ⟨⟩⟩
  · exact ⟨hmem, rfl, rfl, rfl, [], .nil _, rfl, rfl⟩
  · exact ⟨by simp [Head.create], rfl, rfl, rfl, [.create lset'], .single hnone, rfl, rfl⟩

omit hr

/-- Looking for a series fails: at most an ID is used up. -/
lemma resolve_error {err : AppendError} (hr : a.resolve h ref lset = (.error err, a', h')) :
    ∃ es, Runs (a, h) es (a', h') ∧ accepted es = [] ∧ refused es = [] := by
  rcases resolve_cases a h ref lset with
    ⟨err', heq⟩ | ⟨err', heq⟩ | ⟨s, hmem, heq⟩ | ⟨lset', hnone, heq⟩ <;> rw [heq] at hr <;> cases hr
  · exact ⟨[], .nil _, rfl, rfl⟩
  · exact ⟨[.skipID], .single trivial, rfl, rfl⟩

variable (a h ref)

lemma appendLocked_cases (t : ℤ) (v : BitVec 64) :
    (∃ err, a.appendLocked h ref t v = (.error err, a, h)) ∨
      a.appendLocked h ref t v = (.ok ref, apply (a, h) (.accept ⟨ref, t, .float v⟩)) := by
  rw [appendLocked]
  split
  · exact .inl ⟨_, rfl⟩
  split
  · exact .inl ⟨_, rfl⟩
  · exact .inr rfl

/-- A histogram is refused, which marks the series, or it is accepted. -/
lemma appendHistogramLocked_cases (created : Bool) (t : ℤ) (hist : Histogram) :
    let s := apply (a, h) (.preset ref created (some (histogramWithSum 0)) none)
    (∃ err, a.appendHistogramLocked h ref created t hist = (.error err, apply s (.refuse ref))) ∨
      a.appendHistogramLocked h ref created t hist =
        (.ok ref, apply s (.accept ⟨ref, t, .histogram hist⟩)) := by
  rw [appendHistogramLocked]
  split
  · exact .inl ⟨_, rfl⟩
  · exact .inr rfl

/-- A float histogram is refused, which does not mark the series, or it is accepted. -/
lemma appendFloatHistogramLocked_cases (created : Bool) (t : ℤ) (fh : Histogram) :
    let s := apply (a, h) (.preset ref created none (some (histogramWithSum 0)))
    (∃ err, a.appendFloatHistogramLocked h ref created t fh = (.error err, s)) ∨
      a.appendFloatHistogramLocked h ref created t fh =
        (.ok ref, apply s (.accept ⟨ref, t, .floatHistogram fh⟩)) := by
  rw [appendFloatHistogramLocked]
  split
  · exact .inl ⟨_, rfl⟩
  · exact .inr rfl

end HeadAppender

/-- The events of a call, with what the call refuses and, if it succeeds, the sample that it
accepts. -/
def CallRuns (a : HeadAppender) (h : Head) (c : AppendCall) (o : Outcome ℕ) : Prop :=
  ∃ es, Runs (a, h) es o.2 ∧ refused es = c.refusedOnHead a h ∧
    (∀ ref, o.1 = .ok ref → accepted es = (c.sample ref o.2.2).toList) ∧
    ∀ err, o.1 = .error err → accepted es = []

variable {c : AppendCall} {o : Outcome ℕ}

/-- A call that fails before it has a series. -/
lemma CallRuns.of_error (err : AppendError) (hes : Runs (a, h) es (a', h'))
    (hacc : accepted es = [])
    (href : refused es = []) (ho : o = (.error err, a', h')) (hrefused : c.refusedOnHead a h = []) :
    CallRuns a h c o := by
  subst ho
  exact ⟨es, hes, href.trans hrefused.symm, nofun, fun _ _ => hacc⟩

/-- A call that at most notes something besides samples. -/
lemma CallRuns.of_note {r : Except AppendError ℕ}
    (ha : a.SameSamples a') (hrefused : c.refusedOnHead a h = [])
    (hsample : ∀ ref, c.sample ref h = none) : CallRuns a h c (r, a', h) :=
  ⟨[.note a'], .single ha, hrefused.symm, fun ref _ => by rw [hsample]; rfl, fun _ _ => rfl⟩

namespace HeadAppender

variable (es es' : List AppendEvent)

@[simp] lemma accepted_append : accepted (es ++ es') = accepted es ++ accepted es' :=
  filterMap_append

@[simp] lemma refused_append : refused (es ++ es') = refused es ++ refused es' :=
  filterMap_append

variable {t : ℤ} {hist fh : Option Histogram} {v : BitVec 64}

lemma le_of_checkHistograms (hcheck : a.checkHistograms h t hist fh = .ok ()) :
    a.oooTimeWindow = 0 → a.minValidTime ≤ t := by
  intro hzero
  by_contra hlt
  rw [checkHistograms] at hcheck
  split at hcheck
  · cases hcheck
  · rw [if_pos ⟨hzero, not_le.1 hlt⟩] at hcheck
    cases hcheck

/-- What comes after the series is found. -/
lemma appendHistograms_runs (hmem : sref ∈ h.series)
    (ht : a.oooTimeWindow = 0 → a.minValidTime ≤ t) (created : Bool) (ref : ℕ) (lset : List Label)
    (hist fh : Option Histogram) :
    ∃ es, Runs (a, h) es (a.appendHistograms h sref created t hist fh).2 ∧
      refused es = (if hist.isSome ∧ (a.appendHistograms h sref created t hist fh).1.toBool = false
        then [sref] else []) ∧
      (∀ ref', (a.appendHistograms h sref created t hist fh).1 = .ok ref' →
        accepted es = ((AppendCall.appendHistogram ref lset t hist fh).sample ref'
          (a.appendHistograms h sref created t hist fh).2.2).toList) ∧
      ∀ err, (a.appendHistograms h sref created t hist fh).1 = .error err → accepted es = [] := by
  match hist, fh with
  | some hist, fh =>
    rw [appendHistograms]
    rcases appendHistogramLocked_cases a h sref created t hist with ⟨err, heq⟩ | heq
    · rw [heq]
      exact ⟨[.preset sref created _ _, .refuse sref], .cons hmem (.single hmem), rfl, nofun,
        fun _ _ => rfl⟩
    rw [heq]
    refine ⟨[.preset sref created _ _, .accept _], .cons hmem (.single ⟨hmem, ht⟩), rfl, ?_, nofun⟩
    rintro ref' ⟨⟩
    rfl
  | none, some fh =>
    rw [appendHistograms]
    rcases appendFloatHistogramLocked_cases a h sref created t fh with ⟨err, heq⟩ | heq
    · rw [heq]
      exact ⟨[.preset sref created _ _], .single hmem, rfl, nofun, fun _ _ => rfl⟩
    rw [heq]
    refine ⟨[.preset sref created _ _, .accept _], .cons hmem (.single ⟨hmem, ht⟩), rfl, ?_, nofun⟩
    rintro ref' ⟨⟩
    rfl
  | none, none =>
    exact ⟨[.note (a.seen t)], .single (by constructor <;> rfl), rfl, fun _ _ => rfl, nofun⟩

/-- With a series, a call of `AppendHistogram` is what it does with this series. -/
lemma appendHistogram_of_resolve (hcheck : a.checkHistograms h t hist fh = .ok ())
    (hr : a.resolve h ref lset = (.ok (sref, created), a', h')) :
    a.appendHistogram h ref lset t hist fh = a'.appendHistograms h' sref created t hist fh := by
  rw [appendHistogram, hcheck]
  simp only [hr]

variable (a h ref lset)

lemma appendHistogram_runs (t : ℤ) (hist fh : Option Histogram) :
    CallRuns a h (.appendHistogram ref lset t hist fh)
      (a.appendHistogram h ref lset t hist fh) := by
  cases hcheck : a.checkHistograms h t hist fh with
  | error err =>
    refine .of_error err (.nil _) rfl rfl (by rw [appendHistogram, hcheck]) ?_
    cases hist with
    | none => rfl
    | some hist => rw [AppendCall.refusedOnHead, refusesHistogram, hcheck]
  | ok u =>
    obtain ⟨r, a', h', hr⟩ : ∃ r a' h', a.resolve h ref lset = (r, a', h') := ⟨_, _, _, rfl⟩
    cases r with
    | error err =>
      obtain ⟨es, hes, hacc, href⟩ := resolve_error hr
      refine .of_error err hes hacc href (by rw [appendHistogram, hcheck]; simp only [hr]) ?_
      cases hist with
      | none => rfl
      | some hist => rw [AppendCall.refusedOnHead, refusesHistogram, hcheck, hr]
    | ok found =>
      obtain ⟨sref, created⟩ := found
      obtain ⟨hmem, hwindow, hmin, -, es, hes, hacc, href⟩ := resolve_runs hr
      have heq := appendHistogram_of_resolve hcheck hr
      have ht : a'.oooTimeWindow = 0 → a'.minValidTime ≤ t := by
        rw [hwindow, hmin]
        exact le_of_checkHistograms hcheck
      obtain ⟨es', hes', href', hacc', herr'⟩ :=
        appendHistograms_runs hmem ht created ref lset hist fh
      rw [CallRuns, heq]
      refine ⟨es ++ es', hes.append hes', ?_, ?_, ?_⟩
      · rw [refused_append, href, href', nil_append]
        cases hist with
        | none => rfl
        | some hist =>
          rw [AppendCall.refusedOnHead, refusesHistogram, hcheck, hr, heq]
          cases (a'.appendHistograms h' sref created t (some hist) fh).1 <;> rfl
      · intro ref' hok
        rw [accepted_append, hacc, hacc' ref' hok, nil_append]
      · intro err herr
        rw [accepted_append, hacc, herr' err herr, nil_append]

variable {a h ref lset}

lemma presetLast_false (s : HeadSeries) (last lastFloat : Option Histogram) :
    s.presetLast false last lastFloat = s :=
  if_neg (fun hc => absurd hc.1 Bool.false_ne_true)

lemma staleHistogram_mark (ref : ℕ) (v : BitVec 64) :
    staleHistogram ((h.mark ref).mem ref) v = staleHistogram (h.mem ref) v := by
  simp only [staleHistogram, Head.mark, Head.update_mem_self]

/-- A series that was not created keeps its last values. -/
lemma staleHistogram_appendHistograms {ref' : ℕ} (v : BitVec 64)
    (heq : a.appendHistograms h sref false t hist fh = (.ok ref', a', h')) :
    ref' = sref ∧ staleHistogram (h'.mem sref) v = staleHistogram (h.mem sref) v := by
  have hpreset : ∀ last lastFloat, (apply (a, h) (.preset sref false last lastFloat)) = (a, h) := by
    intro last lastFloat
    simp only [apply, presetLast_false, Head.update, Function.update_eq_self]
  match hist, fh with
  | some hist, fh =>
    rw [appendHistograms] at heq
    rcases appendHistogramLocked_cases a h sref false t hist with ⟨err, hcase⟩ | hcase
    · rw [hcase] at heq
      cases heq
    rw [hcase, hpreset] at heq
    cases heq
    exact ⟨rfl, rfl⟩
  | none, some fh =>
    rw [appendHistograms] at heq
    rcases appendFloatHistogramLocked_cases a h sref false t fh with ⟨err, hcase⟩ | hcase
    · rw [hcase] at heq
      cases heq
    rw [hcase, hpreset] at heq
    cases heq
    exact ⟨rfl, staleHistogram_mark sref v⟩
  | none, none =>
    cases heq
    exact ⟨rfl, rfl⟩

/-- Only a series that was found can have had a histogram as its last value. -/
lemma resolve_of_staleHistogram {hists : Option Histogram × Option Histogram}
    (hr : a.resolve h ref lset = (.ok (sref, created), a', h'))
    (hstale : staleHistogram (h'.mem sref) v = some hists) :
    created = false ∧ a' = a ∧ h' = h := by
  rcases resolve_ok hr with ⟨-, hfound⟩ | ⟨lset', -, rfl, ⟨⟩⟩
  · exact hfound
  · simp [staleHistogram, Head.create, HeadSeries.new] at hstale

/-- A stale marker is one of the two kinds of histograms. -/
lemma staleHistogram_cases {s : HeadSeries} (hstale : staleHistogram s v = some (hist, fh)) :
    (hist = some (histogramWithSum v) ∧ fh = none) ∨
      (hist = none ∧ fh = some (histogramWithSum v)) := by
  rw [staleHistogram] at hstale
  split_ifs at hstale
  · cases hstale
    exact .inl ⟨rfl, rfl⟩
  · cases hstale
    exact .inr ⟨rfl, rfl⟩

/-- The sample that is appended in place of a stale marker. -/
lemma sample_of_stale (hstale : staleHistogram (h.mem sref) v = some (hist, fh)) :
    (AppendCall.append ref lset t v).sample sref h =
      (AppendCall.appendHistogram ref lset t hist fh).sample sref h := by
  rw [AppendCall.sample, hstale]
  rcases staleHistogram_cases hstale with ⟨rfl, rfl⟩ | ⟨rfl, rfl⟩ <;> rfl

variable (a h ref lset)

lemma append_runs (t : ℤ) (v : BitVec 64) :
    CallRuns a h (.append ref lset t v) (a.append h ref lset t v) := by
  by_cases hbounds : a.oooTimeWindow = 0 ∧ t < a.minValidTime
  · exact .of_error .outOfBounds (.nil _) rfl rfl (by rw [append, if_pos hbounds])
      (by rw [AppendCall.refusedOnHead, if_pos hbounds])
  have ht : a.oooTimeWindow = 0 → a.minValidTime ≤ t := by
    intro hzero
    exact not_lt.1 fun hlt => hbounds ⟨hzero, hlt⟩
  obtain ⟨r, a', h', hr⟩ : ∃ r a' h', a.resolve h ref lset = (r, a', h') := ⟨_, _, _, rfl⟩
  cases r with
  | error err =>
    obtain ⟨es, hes, hacc, href⟩ := resolve_error hr
    refine .of_error err hes hacc href ?_ ?_
    · rw [append, if_neg hbounds]
      simp only [hr]
    · rw [AppendCall.refusedOnHead, if_neg hbounds]
      simp only [hr]
  | ok found =>
    obtain ⟨sref, created⟩ := found
    cases hstale : staleHistogram (h'.mem sref) v with
    | none =>
      have heq : a.append h ref lset t v = a'.appendLocked h' sref t v := by
        rw [append, if_neg hbounds]
        simp only [hr, hstale]
      have hrefused : (AppendCall.append ref lset t v).refusedOnHead a h = [] := by
        rw [AppendCall.refusedOnHead, if_neg hbounds]
        simp only [hr, hstale]
      obtain ⟨hmem, hwindow, hmin, -, es, hes, hacc, href⟩ := resolve_runs hr
      rw [CallRuns, heq, hrefused]
      rcases appendLocked_cases a' h' sref t v with ⟨err, hcase⟩ | hcase
      · rw [hcase]
        refine ⟨es, hes, href, ?_, fun _ _ => hacc⟩
        rintro ref' ⟨⟩
      have henabled : Enabled (a', h') (.accept ⟨sref, t, .float v⟩) := by
        refine ⟨hmem, ?_⟩
        rw [hwindow, hmin]
        exact ht
      rw [hcase]
      refine ⟨es ++ [.accept ⟨sref, t, .float v⟩], hes.append (.single henabled), ?_, ?_, ?_⟩
      · rw [refused_append, href]
        rfl
      · rintro ref' ⟨⟩
        have hstale' : staleHistogram ((h'.mark sref).mem sref) v = none := by
          rw [staleHistogram_mark, hstale]
        rw [accepted_append, hacc]
        simp only [AppendCall.sample, apply, SampleValue.marks, if_true, hstale']
        rfl
      · rintro err ⟨⟩
    | some hists =>
      -- The series was found, so looking for it once more finds it again.
      obtain ⟨hist, fh⟩ := hists
      obtain ⟨rfl, rfl, rfl⟩ := resolve_of_staleHistogram hr hstale
      have heq : a'.append h' ref lset t v = a'.appendHistogram h' ref lset t hist fh := by
        rw [append, if_neg hbounds]
        simp only [hr, hstale]
      have hrefused : (AppendCall.append ref lset t v).refusedOnHead a' h' =
          (AppendCall.appendHistogram ref lset t hist fh).refusedOnHead a' h' := by
        rw [AppendCall.refusedOnHead, if_neg hbounds]
        simp only [hr, hstale]
        rcases staleHistogram_cases hstale with ⟨rfl, rfl⟩ | ⟨rfl, rfl⟩ <;> rfl
      obtain ⟨es, hes, href, hacc, herr⟩ := appendHistogram_runs a' h' ref lset t hist fh
      rw [CallRuns, heq, hrefused]
      refine ⟨es, hes, href, ?_, herr⟩
      intro ref' hok
      rw [hacc ref' hok]
      cases hcheck : a'.checkHistograms h' t hist fh with
      | error err =>
        rw [appendHistogram, hcheck] at hok
        cases hok
      | ok u =>
        have hcall := appendHistogram_of_resolve hcheck hr
        obtain ⟨rfl, hsame⟩ := staleHistogram_appendHistograms v
          (hcall.symm.trans (Prod.ext hok rfl))
        rw [sample_of_stale (hsame.trans hstale)]

lemma appendExemplar_runs (e : Exemplar) :
    CallRuns a h (.appendExemplar ref lset e) (a.appendExemplar h ref lset e) := by
  rw [appendExemplar]
  dsimp only
  repeat' split
  all_goals exact .of_note (by constructor <;> rfl) rfl fun _ => rfl

lemma updateMetadata_runs (m : Metadata) :
    CallRuns a h (.updateMetadata ref lset m) (a.updateMetadata h ref lset m) := by
  rw [updateMetadata]
  repeat' split
  all_goals exact .of_note (by constructor <;> rfl) rfl fun _ => rfl

end HeadAppender

/-- Every call is a sequence of events. -/
theorem onHead_runs (a : HeadAppender) (h : Head) (c : AppendCall) :
    CallRuns a h c (c.onHead a h) := by
  cases c with
  | append ref lset t v => exact a.append_runs h ref lset t v
  | appendHistogram ref lset t hist fh => exact a.appendHistogram_runs h ref lset t hist fh
  | appendExemplar ref lset e => exact a.appendExemplar_runs h ref lset e
  | updateMetadata ref lset m => exact a.updateMetadata_runs h ref lset m
  | setOptions discard => exact .of_note (by constructor <;> rfl) rfl fun _ => rfl

/-! ### Runs as events -/

/-- The head in which an appender starts: an `initAppender` may have set its times before. -/
def Head.Started (h h₁ : Head) : Prop :=
  h₁ = h ∨ ∃ t, h₁ = h.initTime t

variable {h h₁ : Head}

lemma Head.Started.same (hstart : h.Started h₁) :
    h₁.wal = h.wal ∧ h₁.lastSeriesID = h.lastSeriesID ∧ h₁.series = h.series ∧ h₁.mem = h.mem := by
  rcases hstart with rfl | ⟨t, rfl⟩
  · exact ⟨rfl, rfl, rfl, rfl⟩
  · rw [Head.initTime]
    split <;> exact ⟨rfl, rfl, rfl, rfl⟩

/-- A run before its first call, or a sequence of events since an appender started. -/
def AppendRun.Since (h : Head) (pick : Option ℕ) (refusals : List ℕ) (r : AppendRun) : Prop :=
  (r.app = none ∧ r.head = h ∧ r.accepted = [] ∧ refusals = []) ∨
    ∃ h₁ a es, h.Started h₁ ∧ r.app = some a ∧ Runs (h₁.appender pick) es (a, r.head) ∧
      AppendEvent.accepted es = r.accepted ∧ AppendEvent.refused es = refusals

lemma initHead_started (hinit : c.initHead h = some h₁) : h.Started h₁ := by
  cases c with
  | append ref lset t v =>
    cases hinit
    exact .inr ⟨t, rfl⟩
  | appendHistogram ref lset t hist fh =>
    cases hinit
    exact .inr ⟨t, rfl⟩
  | appendExemplar ref lset e =>
    rw [AppendCall.initHead] at hinit
    split at hinit
    · cases hinit
    · cases hinit
      exact .inr ⟨e.ts, rfl⟩
  | updateMetadata ref lset m =>
    cases hinit
    exact .inl rfl
  | setOptions discard => cases hinit

variable {refusals : List ℕ} {pick : Option ℕ}

/-- A call on an appender that has started. -/
lemma AppendRun.next_some {r : AppendRun} {a : HeadAppender} (hstart : h.Started h₁)
    (hes : Runs (h₁.appender pick) es (a, h')) (hacc : AppendEvent.accepted es = r.accepted)
    (href : AppendEvent.refused es = refusals)
    (ho : c.onHead a h' = o) (hcall : c.call pick r.app r.head = (o.1, some o.2.1, o.2.2)) :
    (r.next pick c).Since h pick (refusals ++ c.refusedOnHead a h') := by
  obtain ⟨es', hes', href', hok, herr⟩ := onHead_runs a h' c
  rw [ho] at hes' hok herr
  rw [AppendRun.next, hcall]
  refine .inr ⟨h₁, o.2.1, es ++ es', hstart, ?_⟩
  have hrefused : AppendEvent.refused (es ++ es') = refusals ++ c.refusedOnHead a h' := by
    rw [HeadAppender.refused_append, href, href']
  cases hres : o.1 with
  | error err =>
    refine ⟨rfl, hes.append hes', ?_, hrefused⟩
    rw [HeadAppender.accepted_append, hacc, herr err hres, append_nil]
  | ok ref =>
    refine ⟨rfl, hes.append hes', ?_, hrefused⟩
    rw [HeadAppender.accepted_append, hacc, hok ref hres]

lemma AppendRun.Since.next {r : AppendRun} (hr : r.Since h pick refusals) (c : AppendCall) :
    (r.next pick c).Since h pick (refusals ++ c.refused pick r.app r.head) := by
  rcases hr with ⟨happ, rfl, hacc, href⟩ | ⟨h₁, a, es, hstart, happ, hes, hacc, href⟩
  · cases hinit : c.initHead r.head with
    | none =>
      have hcall : c.call pick r.app r.head = (.ok 0, none, r.head) := by
        rw [happ, AppendCall.call, hinit]
      have hsample : c.sample 0 r.head = none := by
        cases c <;> simp_all [AppendCall.initHead, AppendCall.sample]
      refine .inl ?_
      rw [AppendRun.next, hcall, happ, AppendCall.refused, hinit, href]
      simp [hacc, hsample]
    | some h₁ =>
      -- The appender is created for this call.
      have hcall : c.call pick r.app r.head =
          ((c.onHead (h₁.appender pick).1 (h₁.appender pick).2).1,
            some (c.onHead (h₁.appender pick).1 (h₁.appender pick).2).2.1,
            (c.onHead (h₁.appender pick).1 (h₁.appender pick).2).2.2) := by
        rw [happ, AppendCall.call, hinit]
      rw [happ, AppendCall.refused, hinit]
      exact AppendRun.next_some (initHead_started hinit) (.nil _) hacc.symm href.symm rfl hcall
  · rw [happ, AppendCall.refused]
    refine AppendRun.next_some hstart hes hacc href rfl ?_
    rw [happ, AppendCall.call]

variable (h pick)

/-- Every run of an appender is a sequence of events. -/
lemma appendRun_since (calls : List AppendCall) :
    (h.appendRun pick calls).Since h pick (h.refusals pick calls) := by
  have hstart : AppendRun.Since h pick [] ⟨(h.newAppender pick).1, (h.newAppender pick).2, []⟩ := by
    rw [Head.newAppender]
    split
    · exact .inr ⟨h, _, [], .inl rfl, rfl, .nil _, rfl, rfl⟩
    · exact .inl ⟨rfl, rfl, rfl, rfl⟩
  -- By induction on the calls, with the refusals so far in front.
  have hrun : ∀ (calls : List AppendCall) (r : AppendRun) (refusals : List ℕ),
      r.Since h pick refusals → (calls.foldl (AppendRun.next pick) r).Since h pick
        (refusals ++ AppendRun.refusals pick r calls) := by
    intro calls
    induction calls with
    | nil =>
      intro r refusals hr
      rw [AppendRun.refusals, append_nil]
      exact hr
    | cons c calls ih =>
      intro r refusals hr
      rw [AppendRun.refusals, ← append_assoc]
      exact ih _ _ (hr.next c)
  exact hrun calls _ [] hstart

end Prometheus.Tsdb
