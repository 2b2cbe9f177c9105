import Prometheus.Tsdb.AppenderMoves

/-!
# Series records come first

When the log is loaded, a sample of a series is of use only if the series record was read before. An
appender logs the series that it has created before everything else, so its own samples are fine.
But a series can be found by other appenders as soon as it is created, long before its creator logs
it. If such an appender commits first, its samples come before the series record, and are dropped by
a replay.

`unknownRefs_iff_waits` says that this is the only way: a log has no sample of an unknown series
exactly if no appender logs samples of a series of another one that has not logged it yet. The proof
has one invariant, `Tracked`, about where refs come from.
-/

namespace Prometheus.Tsdb

open GoInt Record Transition List

/-- The refs that a series record makes known. -/
def WalRecord.defines : WalRecord → List ℕ
  | series xs => xs.map (·.1)
  | _ => []

/-- The refs that are unknown when the log is loaded, after some refs have become known. -/
def unknownRefs (known : List ℕ) : List WalRecord → List ℕ
  | [] => []
  | rec :: wal => rec.refs.filter (· ∉ known) ++ unknownRefs (known ++ rec.defines) wal

lemma unknownRefs_append (known : List ℕ) (wal wal' : List WalRecord) :
    unknownRefs known (wal ++ wal') =
      unknownRefs known wal ++ unknownRefs (known ++ wal.flatMap WalRecord.defines) wal' := by
  induction wal generalizing known with
  | nil => simp [unknownRefs]
  | cons rec wal ih => simp [unknownRefs, ih]

/-- No ref is unknown in any part of the log that was written first. -/
def AllKnown (wal : List WalRecord) : Prop :=
  ∀ p, p <+: wal → unknownRefs [] p = []

lemma allKnown_iff (wal : List WalRecord) : AllKnown wal ↔ unknownRefs [] wal = [] := by
  constructor
  · intro h
    exact h wal (prefix_refl wal)
  · rintro h p ⟨rest, rfl⟩
    rw [unknownRefs_append] at h
    exact (append_eq_nil_iff.1 h).1

lemma allKnown_concat (wal : List WalRecord) (rec : WalRecord) :
    AllKnown (wal ++ [rec]) ↔
      AllKnown wal ∧ ∀ ref ∈ rec.refs, ref ∈ wal.flatMap WalRecord.defines := by
  rw [allKnown_iff, allKnown_iff, unknownRefs_append, append_eq_nil_iff]
  simp [unknownRefs]

lemma mem_defines_of_series {wal : List WalRecord} {xs : List (ℕ × List Label)} {ref : ℕ}
    (hmem : .series xs ∈ wal) (href : ref ∈ xs.map (·.1)) : ref ∈ wal.flatMap WalRecord.defines :=
  mem_flatMap.2 ⟨_, hmem, href⟩

lemma exists_series_of_mem_defines {wal : List WalRecord} {ref : ℕ}
    (h : ref ∈ wal.flatMap WalRecord.defines) : ∃ xs, .series xs ∈ wal ∧ ref ∈ xs.map (·.1) := by
  obtain ⟨rec, hrec, href⟩ := mem_flatMap.1 h
  cases rec with
  | series xs => exact ⟨xs, hrec, href⟩
  | _ => cases href

namespace Appenders

def wal (s : Appenders) : List WalRecord :=
  s.head.wal.getD []

/-- A step waits for the creators of series: it logs nothing about a series of another appender that
has not logged its series yet. -/
def Waits (s : Appenders) (act : Action) : Prop :=
  ∀ i rec, s.logging act = some (i, rec) → ∀ ref ∈ rec.refs, ∀ j, j ≠ i →
    ref ∈ (s.phase j).seriesRefs.map (·.1) → .series (s.phase j).seriesRefs ∈ s.wal

/-- Where refs and series records come from, in a head that had the log `w₀` and the last ref `n₀`
before any appender. -/
structure Tracked (w₀ : List WalRecord) (n₀ : ℕ) (s : Appenders) : Prop where
  /-- New series records are those of appenders that commit or roll back. -/
  wal : ∃ w, s.head.wal = some (w₀ ++ w) ∧ ∀ xs, .series xs ∈ w →
    ∃ j c, s.phase j = .closing c ∧ xs = (s.phase j).seriesRefs
  last : n₀ ≤ s.head.lastSeriesID
  /-- New refs are new. -/
  fresh : ∀ j, ∀ ref ∈ (s.phase j).seriesRefs.map (·.1), n₀ < ref ∧ ref ≤ s.head.lastSeriesID
  /-- No two appenders have created the same series. -/
  apart : ∀ j k, j ≠ k → ∀ ref ∈ (s.phase j).seriesRefs.map (·.1),
    ref ∉ (s.phase k).seriesRefs.map (·.1)
  /-- A ref in use was known before, or is the one of a new series. -/
  known : ∀ ref, s.InUse ref → ref ∈ w₀.flatMap WalRecord.defines ∨
    ∃ j, ref ∈ (s.phase j).seriesRefs.map (·.1)
  logs : ∀ j, (s.phase j).LogsSeries s.wal

lemma LogsSeries.mono {p : Phase} {wal wal' : List WalRecord} (hsub : wal ⊆ wal')
    (hp : p.LogsSeries wal) : p.LogsSeries wal' := by
  cases p with
  | closing c => exact ⟨hp.own, hp.first.imp_left fun hmem => hsub hmem⟩
  | _ => trivial

namespace Tracked

variable {w₀ : List WalRecord} {n₀ : ℕ} {s : Appenders} {i : ℕ}

section

variable (hs : Tracked w₀ n₀ s)
include hs

/-- A step that creates no series and logs the records `recs`. -/
lemma of_same {s' : Appenders} (recs : List WalRecord)
    (hwal : ∀ w, s.head.wal = some w → s'.head.wal = some (w ++ recs))
    (hrecs : ∀ xs, .series xs ∈ recs → ∃ j c, s'.phase j = .closing c ∧
    xs = (s'.phase j).seriesRefs)
    (hclosing : ∀ j c, s.phase j = .closing c → ∃ c', s'.phase j = .closing c')
    (hnew : ∀ j, (s'.phase j).seriesRefs = (s.phase j).seriesRefs)
    (hlast : s.head.lastSeriesID ≤ s'.head.lastSeriesID) (huse : ∀ ref, s'.InUse ref → s.InUse ref)
    (hlogs : ∀ j, (s'.phase j).LogsSeries s'.wal) : Tracked w₀ n₀ s' := by
  obtain ⟨w, hw, hseriesRecords⟩ := hs.wal
  refine ⟨⟨w ++ recs, by rw [hwal _ hw, append_assoc], fun xs hxs => ?_⟩, hs.last.trans hlast,
    fun j ref href => ?_, fun j k hjk => ?_, fun ref href => ?_, hlogs⟩
  · rcases mem_append.1 hxs with hxs | hxs
    · obtain ⟨j, c, hc, hxs⟩ := hseriesRecords xs hxs
      obtain ⟨c', hc'⟩ := hclosing j c hc
      exact ⟨j, c', hc', hxs.trans (hnew j).symm⟩
    · exact hrecs xs hxs
  · rw [hnew j] at href
    exact (hs.fresh j ref href).imp_right fun hle => hle.trans hlast
  · rw [hnew j, hnew k]
    exact hs.apart j k hjk
  · simp only [hnew]
    exact hs.known ref (huse ref href)

lemma work {p : Phase} {h : Head} (hhead : s.head.Same h)
    (hnew : p.seriesRefs = (s.phase i).seriesRefs)
    (hrefs : ∀ ref ∈ p.refs, ref ∈ (s.phase i).refs ∨ ref ∈ s.head.series)
    (hclosing : ∀ c, s.phase i = .closing c → ∃ c', p = .closing c')
    (hlogs : ∀ wal, (s.phase i).LogsSeries wal → p.LogsSeries wal) :
    Tracked w₀ n₀ (s.set i p h) := by
  obtain ⟨hwal, hseries, hlast, -⟩ := hhead
  have hwal' : (s.set i p h).wal = s.wal := congrArg (Option.getD · []) hwal
  refine hs.of_same [] (fun w hw => ?_) nofun ?_ ?_ hlast (fun ref href => ?_) ?_
  · rw [append_nil]
    exact hwal.trans hw
  · exact forall_phase_set (P := fun j q => ∀ c, s.phase j = .closing c → ∃ c', q = .closing c')
      hclosing fun _ _ c hc => ⟨c, hc⟩
  · exact forall_phase_set (P := fun j q => q.seriesRefs = (s.phase j).seriesRefs)
      hnew fun _ _ => rfl
  · rcases href with href | ⟨j, href⟩
    · exact .inl (hseries ▸ href)
    · by_cases hj : j = i
      · subst hj
        rw [phase_set_self] at href
        exact (hrefs ref href).symm.imp_right fun hmem => ⟨j, hmem⟩
      · rw [phase_set_of_ne s hj] at href
        exact .inr ⟨j, href⟩
  · rw [hwal']
    exact forall_phase_set (hlogs _ (hs.logs i)) fun j _ => hs.logs j

lemma create {a a' : HeadAppender} {p p' : Progress} {h : Head}
    {lset : List Label} (hphase : s.phase i = .active a p) (hadds : s.head.Adds lset h)
    (hnew : a'.seriesRefs = a.seriesRefs ++ [(s.head.lastSeriesID + 1, lset)])
    (hrefs : ∀ ref ∈ (Phase.active a' p').refs, ref ∈ (s.phase i).refs ∨ ref ∈ h.series) :
    Tracked w₀ n₀ (s.set i (.active a' p') h) := by
  obtain ⟨-, hwal, hseries, hlast, -, -⟩ := hadds
  -- The appender has one more new series than before, and its ref is above all others.
  have hrefs_i : (Phase.active a' p').seriesRefs.map (·.1) =
      (s.phase i).seriesRefs.map (·.1) ++ [s.head.lastSeriesID + 1] := by
    have hold : (s.phase i).seriesRefs = a.seriesRefs := by rw [hphase]; rfl
    have hnow : (Phase.active a' p').seriesRefs = a'.seriesRefs := rfl
    rw [hnow, hold, hnew, map_append]
    rfl
  have hmem : ∀ j, ∀ ref ∈ ((s.set i (.active a' p') h).phase j).seriesRefs.map (·.1),
      ref ∈ (s.phase j).seriesRefs.map (·.1) ∨ j = i ∧ ref = s.head.lastSeriesID + 1 := by
    refine forall_phase_set (P := fun j q => ∀ ref ∈ q.seriesRefs.map (·.1),
      ref ∈ (s.phase j).seriesRefs.map (·.1) ∨ j = i ∧ ref = s.head.lastSeriesID + 1) ?_
      fun _ _ _ href => .inl href
    intro ref href
    rw [hrefs_i] at href
    rcases mem_append.1 href with href | href
    · exact .inl href
    · exact .inr ⟨rfl, mem_singleton.1 href⟩
  have hsub : ∀ j, ∀ ref ∈ (s.phase j).seriesRefs.map (·.1),
      ref ∈ ((s.set i (.active a' p') h).phase j).seriesRefs.map (·.1) := by
    refine forall_phase_set (P := fun j q => ∀ ref ∈ (s.phase j).seriesRefs.map (·.1),
      ref ∈ q.seriesRefs.map (·.1)) ?_ fun _ _ _ href => href
    intro ref href
    rw [hrefs_i]
    exact mem_append_left _ href
  have hbound : ∀ j, s.head.lastSeriesID + 1 ∉ (s.phase j).seriesRefs.map (·.1) := by
    intro j hin
    exact absurd (hs.fresh j _ hin).2 (by simp)
  have hwal' : (s.set i (.active a' p') h).wal = s.wal := congrArg (Option.getD · []) hwal
  obtain ⟨w, hw, hseriesRecords⟩ := hs.wal
  refine ⟨⟨w, hwal.trans hw, fun xs hxs => ?_⟩, ?_, ?_, ?_, ?_, ?_⟩
  · obtain ⟨j, c, hc, hxs⟩ := hseriesRecords xs hxs
    have hj : j ≠ i := by
      rintro rfl
      rw [hphase] at hc
      cases hc
    refine ⟨j, c, ?_, ?_⟩
    · rw [phase_set_of_ne s hj]
      exact hc
    · rw [phase_set_of_ne s hj]
      exact hxs
  · have hle := hs.last
    exact hle.trans (hlast ▸ Nat.le_succ _)
  · intro j ref href
    have hlast' : (s.set i (.active a' p') h).head.lastSeriesID = s.head.lastSeriesID + 1 := hlast
    rw [hlast']
    rcases hmem j ref href with hold | ⟨-, rfl⟩
    · exact (hs.fresh j ref hold).imp_right Nat.le_succ_of_le
    · exact ⟨Nat.lt_succ_of_le hs.last, le_rfl⟩
  · intro j k hjk ref hj hk
    rcases hmem j ref hj with hj | ⟨rfl, rfl⟩
    · rcases hmem k ref hk with hk | ⟨-, rfl⟩
      · exact hs.apart j k hjk ref hj hk
      · exact hbound j hj
    rcases hmem k _ hk with hk | ⟨rfl, -⟩
    · exact hbound k hk
    · exact hjk rfl
  · intro ref href
    have hbefore : s.InUse ref ∨ ref = s.head.lastSeriesID + 1 := by
      have hsplit : ref ∈ h.series → s.InUse ref ∨ ref = s.head.lastSeriesID + 1 := by
        intro hin
        rw [hseries] at hin
        exact (mem_append.1 hin).imp .inl mem_singleton.1
      rcases href with href | ⟨j, href⟩
      · exact hsplit href
      by_cases hj : j = i
      · subst hj
        rw [phase_set_self] at href
        exact (hrefs ref href).elim (fun hin => .inl (.inr ⟨j, hin⟩)) hsplit
      · rw [phase_set_of_ne s hj] at href
        exact .inl (.inr ⟨j, href⟩)
    rcases hbefore with hbefore | rfl
    · exact (hs.known ref hbefore).imp_right fun ⟨j, hj⟩ => ⟨j, hsub j ref hj⟩
    refine .inr ⟨i, ?_⟩
    rw [phase_set_self, hrefs_i]
    simp
  · rw [hwal']
    exact forall_phase_set trivial fun j _ => hs.logs j

lemma log {c : Closing} {rec : WalRecord} {tasks : List Task}
    (hphase : s.phase i = .closing c) (htasks : c.tasks = .log rec :: tasks) :
    Tracked w₀ n₀ (s.set i (.closing { c with tasks := tasks })
      { s.head with wal := s.head.wal.map (· ++ [rec]) }) := by
  set p : Phase := .closing { c with tasks := tasks } with hp
  set h : Head := { s.head with wal := s.head.wal.map (· ++ [rec]) } with hh
  obtain ⟨w, hw, -⟩ := hs.wal
  have hlogs : c.LogsSeries s.wal := by
    have hi := hs.logs i
    rwa [hphase] at hi
  have hwal : ∀ w, s.head.wal = some w → (s.set i p h).head.wal = some (w ++ [rec]) := fun w hw =>
    congrArg (Option.map (· ++ [rec])) hw
  have hwal' : (s.set i p h).wal = s.wal ++ [rec] := by
    rw [Appenders.wal, Appenders.wal, hwal _ hw, hw]
    rfl
  refine hs.of_same [rec] hwal (fun xs hxs => ?_) ?_ ?_ le_rfl (fun ref href => ?_) ?_
  · refine ⟨i, _, phase_set_self .., ?_⟩
    rw [phase_set_self]
    exact hlogs.own xs (by rw [htasks, mem_singleton.1 hxs]; exact mem_cons_self)
  · exact forall_phase_set (P := fun j q => ∀ c, s.phase j = .closing c → ∃ c', q = .closing c')
      (fun _ _ => ⟨_, rfl⟩) fun _ _ c hc => ⟨c, hc⟩
  · refine forall_phase_set (P := fun j q => q.seriesRefs = (s.phase j).seriesRefs)
      ?_ fun _ _ => rfl
    rw [hphase]
    rfl
  · refine href.imp_right fun ⟨j, href⟩ => ⟨j, ?_⟩
    revert href
    refine forall_phase_set
      (P := fun j q => ref ∈ q.refs → ref ∈ (s.phase j).refs) ?_ (fun _ _ href => href) j
    intro href
    rw [hphase]
    rcases mem_append.1 href with href | href
    · exact mem_append_left _ href
    refine mem_append_right _ ?_
    rw [htasks, flatMap_cons]
    exact mem_append_right _ href
  · rw [hwal']
    refine forall_phase_set ?_ fun j _ =>
      LogsSeries.mono (subset_append_left _ _) (hs.logs j)
    refine ⟨fun xs hmem => hlogs.own xs (by rw [htasks]; exact mem_cons_of_mem _ hmem), ?_⟩
    rcases hlogs.first with hlogged | hnone | hfirst
    · exact .inl (mem_append_left _ hlogged)
    · exact .inr (.inl hnone)
    -- This was the record with the new series.
    have hrec := hfirst (.log rec) (by rw [htasks]; rfl)
    cases hrec
    exact .inl (mem_append_right _ (mem_singleton_self _))

lemma gc (ref : ℕ) (mint : ℤ) (minOOOMmapRef : ℕ) :
    Tracked w₀ n₀ { s with head := s.head.gcCheck ref mint minOOOMmapRef } := by
  obtain ⟨hwal, hlast, -, hseries⟩ := s.head.gcCheck_spec ref mint minOOOMmapRef
  have hwal' : Appenders.wal { s with head := s.head.gcCheck ref mint minOOOMmapRef } = s.wal :=
    congrArg (Option.getD · []) hwal
  refine hs.of_same [] (fun w hw => ?_) nofun (fun j c hc => ⟨c, hc⟩) (fun _ => rfl) hlast.ge ?_ ?_
  · rw [append_nil]
    exact hwal.trans hw
  · exact fun r hr => hr.imp_left fun hr => ((hseries r).1 hr).1
  · rw [hwal']
    exact hs.logs

lemma step {s' : Appenders} {act : Action} (hstep : s.step act = some s') : Tracked w₀ n₀ s' := by
  cases step_move hstep with
  | work i p h _ hsame hnew hrefs hclosing hlogs => exact hs.work hsame hnew hrefs hclosing hlogs
  | create i a a' p p' h lset _ hphase hadds hnew hrefs => exact hs.create hphase hadds hnew hrefs
  | log i c rec tasks _ hphase htasks => exact hs.log hphase htasks
  | gc ref mint minOOOMmapRef _ _ => exact hs.gc ref mint minOOOMmapRef

lemma allKnown_step (hw₀ : ∀ ref ∈ w₀.flatMap WalRecord.defines, ref ≤ n₀)
    {s' : Appenders} {act : Action} (hstep : s.step act = some s') :
    AllKnown s'.wal ↔ AllKnown s.wal ∧ s.Waits act := by
  -- Unless it logs something, a step has nothing to wait for.
  have hquiet : s.logging act = none → s'.wal = s.wal →
      (AllKnown s'.wal ↔ AllKnown s.wal ∧ s.Waits act) := by
    intro hlogging hwal
    rw [hwal]
    refine (and_iff_left fun i rec hlog => ?_).symm
    rw [hlogging] at hlog
    cases hlog
  cases step_move hstep with
  | work i p h hlogging hsame => exact hquiet hlogging (congrArg (Option.getD · []) hsame.wal)
  | create i a a' p p' h lset hlogging hphase hadds =>
    exact hquiet hlogging (congrArg (Option.getD · []) hadds.wal)
  | gc ref mint minOOOMmapRef hact =>
    subst hact
    exact hquiet rfl (congrArg (Option.getD · []) (s.head.gcCheck_spec ref mint minOOOMmapRef).1)
  | log i c rec tasks hlogging hphase htasks =>
    obtain ⟨w, hw, hseriesRecords⟩ := hs.wal
    have hwal : s.wal = w₀ ++ w := by rw [Appenders.wal, hw]; rfl
    have hwal' : (s.set i (.closing { c with tasks := tasks })
        { s.head with wal := s.head.wal.map (· ++ [rec]) }).wal = s.wal ++ [rec] := by
      rw [Appenders.wal, Appenders.wal, Appenders.set, hw]
      rfl
    rw [hwal', allKnown_concat]
    refine and_congr_right fun _ => ⟨?_, ?_⟩
    · -- A known ref of another appender is known by the series record of this appender.
      intro hknown i' rec' hlogging' ref href j _ hj
      rw [hlogging] at hlogging'
      cases hlogging'
      have hdefined := hknown ref href
      rw [hwal, flatMap_append] at hdefined
      rcases mem_append.1 hdefined with hold | hnew
      · exact absurd (hw₀ ref hold) (hs.fresh j ref hj).1.not_ge
      obtain ⟨xs, hxs, hrefxs⟩ := exists_series_of_mem_defines hnew
      obtain ⟨k, -, -, rfl⟩ := hseriesRecords xs hxs
      obtain rfl : k = j := by
        by_contra hkj
        exact hs.apart k j hkj ref hrefxs hj
      rw [hwal]
      exact mem_append_right _ hxs
    intro hwaits ref href
    have hinUse : s.InUse ref := by
      refine .inr ⟨i, ?_⟩
      rw [hphase]
      refine mem_append_right _ ?_
      rw [htasks, flatMap_cons]
      exact mem_append_left _ href
    rcases hs.known ref hinUse with hold | ⟨j, hj⟩
    · rw [hwal, flatMap_append]
      exact mem_append_left _ hold
    refine mem_defines_of_series ?_ hj
    by_cases hji : j = i
    · -- The appender has logged its own series before.
      subst hji
      have hlogs : c.LogsSeries s.wal := by
        have hi := hs.logs j
        rwa [hphase] at hi
      have hrefs : (s.phase j).seriesRefs = c.app.seriesRefs := by rw [hphase]; rfl
      rw [hrefs] at hj ⊢
      rcases hlogs.first with hlogged | hnone | hfirst
      · exact hlogged
      · rw [hnone] at hj
        cases hj
      have hrec := hfirst (.log rec) (by rw [htasks]; rfl)
      cases hrec
      cases href
    · exact hwaits i rec hlogging ref href j hji hj

end

end Tracked

/-- A head with a log in which all series are known, and no appender yet. -/
structure Fresh (s : Appenders) : Prop where
  phase : ∀ i, s.phase i = .absent
  wal : s.head.wal.isSome
  allKnown : AllKnown s.wal
  series : ∀ ref ∈ s.head.series, ref ∈ s.wal.flatMap WalRecord.defines
  last : ∀ ref ∈ s.wal.flatMap WalRecord.defines, ref ≤ s.head.lastSeriesID

lemma Fresh.tracked {s : Appenders} (hs : s.Fresh) : Tracked s.wal s.head.lastSeriesID s := by
  have hnone : ∀ i, (s.phase i).seriesRefs = [] := fun i => by rw [hs.phase i]; rfl
  obtain ⟨w, hw⟩ := Option.isSome_iff_exists.1 hs.wal
  have hwal : s.wal = w := by rw [Appenders.wal, hw]; rfl
  refine ⟨⟨[], ?_, by simp⟩, le_rfl, ?_, ?_, ?_, ?_⟩
  · rw [hw, hwal, append_nil]
  · intro j ref href
    rw [hnone j] at href
    cases href
  · intro j k _ ref href
    rw [hnone j] at href
    cases href
  · rintro ref (href | ⟨i, href⟩)
    · exact .inl (hs.series ref href)
    · rw [hs.phase i] at href
      cases href
  · intro j
    rw [hs.phase j]
    trivial

/-- In any run of appenders, whose steps are interleaved in any way with each other and with the
garbage collection, no part of the log that was written first has a sample, histogram, exemplar or
metadata record of an unknown series, if and only if every step waits for the creators of series. -/
theorem unknownRefs_iff_waits (s : Appenders) (hs : s.Fresh) (acts : List Action) (s' : Appenders)
    (hrun : run step s acts = some s') :
    (∀ p, p <+: s'.wal → unknownRefs [] p = []) ↔ Along step Waits s acts := by
  have hiff : AllKnown s'.wal ↔ AllKnown s.wal ∧ Along step Waits s acts :=
    good_iff_along (fun _ _ _ htracked hstep => Tracked.step htracked hstep)
      (fun _ _ _ htracked hstep => Tracked.allKnown_step htracked hs.last hstep) hs.tracked hrun
  rw [and_iff_right hs.allKnown] at hiff
  exact hiff

/-- A fresh head for examples. -/
def example₀ : Appenders := ⟨Head.example, fun _ => .absent⟩

/-- The second appender finds the series that the first one has created, and commits. -/
theorem second_commits_first :
    let lset : List Label := [⟨[97], [98]⟩]
    let acts : List Action := [.appender 0 (some 1) none, .appender 1 none none,
      .call 0 (.append 0 lset 1 5), .next 0, .next 0,
      .call 1 (.append 0 lset 2 6), .next 1, .next 1, .commit 1, .task 1 true]
    ∃ s', run step example₀ acts = some s' ∧ s'.wal = [.samples [⟨1, 2, 6⟩]] ∧
      ¬ ∀ p, p <+: s'.wal → unknownRefs [] p = [] := by
  intro lset acts
  have hwal : (run step example₀ acts).map wal = some [.samples [⟨1, 2, 6⟩]] := by decide +kernel
  obtain ⟨s', hrun, hs'⟩ := Option.map_eq_some_iff.1 hwal
  refine ⟨s', hrun, hs', fun hall => ?_⟩
  have hunknown := hall s'.wal (prefix_refl _)
  rw [hs'] at hunknown
  exact absurd hunknown (by decide)

/-- The second appender commits after the first one. -/
theorem unknownRefs_iff_waits_two :
    let lset : List Label := [⟨[97], [98]⟩]
    let acts : List Action := [.appender 0 (some 1) none, .appender 1 none none,
      .call 0 (.append 0 lset 1 5), .next 0, .next 0,
      .call 1 (.append 0 lset 2 6), .next 1, .next 1,
      .commit 0, .task 0 true, .task 0 true, .commit 1, .task 1 true]
    ∃ s', run step example₀ acts = some s' ∧
      s'.wal = [.series [(1, lset)], .samples [⟨1, 1, 5⟩], .samples [⟨1, 2, 6⟩]] ∧
      Along step Waits example₀ acts := by
  intro lset acts
  have hfresh : example₀.Fresh := by
    refine ⟨fun _ => rfl, rfl, (allKnown_iff _).2 rfl, ?_, ?_⟩
    · intro ref href
      cases href
    · intro ref href
      cases href
  have hwal : (run step example₀ acts).map wal =
      some [.series [(1, lset)], .samples [⟨1, 1, 5⟩], .samples [⟨1, 2, 6⟩]] := by decide +kernel
  obtain ⟨s', hrun, hs'⟩ := Option.map_eq_some_iff.1 hwal
  refine ⟨s', hrun, hs', (unknownRefs_iff_waits example₀ hfresh acts s' hrun).1 ?_⟩
  rw [hs']
  exact (allKnown_iff _).2 (by decide)

end Appenders

end Prometheus.Tsdb
