import Prometheus.Tsdb.QuerierReads

/-!
# Queriers and the truncation of the head

In runs with timely commits (`Timely`), every querier reaches its samples while it is in use: while
a compaction goes on, in-order samples are not committed before the time of the truncation, and
those that come after `gc` has checked their series are not below the bound that it stores then.

The readers of the head are not always safe. A querier whose range ends before the time of the
truncation gives up its reader of the head. But if it overlaps the out-of-order data, then
`NewHeadAndOOOQuerier` opens a new one, for which the truncation does not wait any more. Exactly
these readers are not safe (`querier_safe_iff`).

Without the condition on commits a sample can be lost to every querier: one that is committed before
the time of the truncation, but after the block was written, is in no block when its chunk is
removed (`querier_misses_late_commit`). `DB.Compact` calls `WaitForAppendersOverlapping` for that
reason.
-/

namespace Prometheus.Tsdb.MemoryTruncation

open State GoInt List Option CompactionPC Series Querier

variable {opts : Options} {st st' : State} {q q' : Querier} {x : Sample}

/-! ### Updates of one series -/

variable {g : ℕ → Series} {i : ℕ} {s : Series}

variable {f : Series → List ℤ}

attribute [local simp] truncating waited

/-- What an update keeps. -/
lemma mem_update_iff (hs : f s = f (g i)) :
    x.2 ∈ f (Function.update g i s x.1) ↔ x.2 ∈ f (g x.1) := by
  by_cases hi : x.1 = i
  · subst hi
    simp [hs]
  · simp [hi]

/-- An update that adds one time. -/
lemma mem_update_iff_or {t : ℤ} (hs : ∀ u, u ∈ f s ↔ u = t ∨ u ∈ f (g i)) :
    x.2 ∈ f (Function.update g i s x.1) ↔ x = (i, t) ∨ x.2 ∈ f (g x.1) := by
  by_cases hi : x.1 = i
  · subst hi
    simp [hs, Prod.ext_iff]
  · simp [hi, Prod.ext_iff]

section gcCheck

variable {todo : List ℕ} {pendingCommit : Bool}

lemma inHead_gcCheck (hx : InHead (st.gcCheck i todo pendingCommit) x) : InHead st x := by
  unfold InHead at hx ⊢
  by_cases hi : x.1 = i
  · subst hi
    exact times_truncate_subset (by simpa [gcCheck] using hx)
  · simpa [gcCheck, hi] using hx

/-- `gc` removes only chunks before the truncation. -/
lemma inHead_gcCheck_of_le (hx : InHead st x) (hle : st.compaction.gcMint ≤ x.2) :
    InHead (st.gcCheck i todo pendingCommit) x := by
  unfold InHead at hx ⊢
  by_cases hi : x.1 = i
  · subst hi
    simpa [gcCheck] using mem_times_truncate hx hle
  · simpa [gcCheck, hi] using hx

lemma inOOO_gcCheck : InOOO (st.gcCheck i todo pendingCommit) x ↔ InOOO st x :=
  mem_update_iff (ooo_truncate _ _)

end gcCheck

/-! ### Steps of the compaction -/

variable {pendingCommit : Bool}

namespace QuerierInv

/-- Only the second load of the question depends on the time of the last truncation. -/
lemma prepared_of_not_sawInProcess {l l' : ℤ} (hsaw : q.sawInProcess = false)
    (h : q.Prepared l x) : q.Prepared l' x := by
  unfold sawInProcess at hsaw
  unfold Prepared at h ⊢
  cases hpc : q.pc <;> simp_all

lemma sawInProcess_of_newMint {newMint : ℤ} (h : q.newMint? = some newMint) : q.sawInProcess := by
  unfold newMint? at h
  unfold sawInProcess
  cases hpc : q.pc <;> simp_all

lemma locked_of_sawInProcess (h : q.sawInProcess) : q.locked := by
  unfold sawInProcess at h
  unfold locked
  cases hpc : q.pc <;> simp_all

section

variable (h : QuerierInv st q)
include h

/-- What a step of another thread has to keep for a querier. -/
lemma of_frame (hneeds : ∀ x, q.pc ≠ .closed → Needs st q x →
      q.Prepared st.lastMemoryTruncationTime x → Needs st' q x)
    (hapart : Apart st q → st'.compaction.pc.waited → q.maxt < st'.compaction.waitMint ∨
      st'.compaction.mint ≤ q.index ∧ st'.compaction.mint ≤ q.inoMint)
    (hsettled : q.sawInProcess → st'.compaction.pc ∉ [.check, .publish, .setInProcess] := by simp)
    (hlast : q.sawInProcess → st'.lastMemoryTruncationTime = st.lastMemoryTruncationTime := by
      exact fun _ => rfl)
    (hooo : ∀ x, InOOO st x → InOOO st' x := by exact fun _ => id) : QuerierInv st' q where
  needs x hx hasks hblocks hclosed :=
    hneeds x hclosed (h.needs x hx hasks hblocks hclosed) (h.prepared x hx hasks hblocks)
  prepared x hx hasks hblocks := by
    have hprep := h.prepared x hx hasks hblocks
    cases hsaw : q.sawInProcess with
    | true => rwa [hlast hsaw]
    | false => exact prepared_of_not_sawInProcess hsaw hprep
  storedOOO x hx := hooo x (h.storedOOO x hx)
  preparedOOO := h.preparedOOO
  settled := hsettled
  newMint n hn := by rw [hlast (sawInProcess_of_newMint hn), h.newMint n hn]
  bounded := h.bounded
  apart hpc hreader :=
    have hap := h.apart hpc hreader
    ⟨hap.registered, hapart hap⟩

/-- A step that changes nothing of what queriers depend on, and does not bring the truncation nearer
to the removal of chunks. -/
lemma of_quiet (htrunc : st'.compaction.pc.truncating → st.compaction.pc.truncating)
    (hwaited : st'.compaction.pc.waited → st.compaction.pc.waited)
    (hsettled : st'.compaction.pc ∈ [.check, .publish, .setInProcess] →
      st.compaction.pc ∈ [.check, .publish, .setInProcess] := by simp)
    (hne : st'.compaction.pc ≠ .wait := by simp) (hseries : st'.series = st.series := by rfl)
    (hmin : st'.minTime = st.minTime := by rfl)
    (hlast : st'.lastMemoryTruncationTime = st.lastMemoryTruncationTime := by rfl)
    (hmint : st'.compaction.mint = st.compaction.mint := by rfl)
    (hwait : st'.compaction.waitMint = st.compaction.waitMint := by rfl) : QuerierInv st' q := by
  refine h.of_frame (fun x _ hneeds _ => ⟨?_, ?_, fun hor => ?_, fun hpc => absurd hpc hne⟩)
    (fun hap hw => ?_) (fun hsaw hmem => h.settled hsaw (hsettled hmem)) (fun _ => hlast)
    (fun x hx => ?_)
  · rw [InHead, hseries]
    exact hneeds.inHead
  · rw [hmin]
    exact hneeds.minTime_le
  · rw [hmint]
    exact hneeds.mint_le (hor.imp (And.imp_right htrunc) hwaited)
  · rw [hmint, hwait]
    exact hap.apart (hwaited hw)
  · rwa [InOOO, hseries]

/-- The wait is over: the needed samples of the queriers in use are after the truncation, since the
range of the reader is registered. -/
lemma wait_over (hq : q ∈ st.queriers) (hpc : st.compaction.pc = .wait)
    (hnone : st.overlaps st.compaction.waitMint st.compaction.mint = false)
    (hst' : st' = { st with compaction := { st.compaction with pc := .storeMinTime } }) :
    QuerierInv st' q := by
  subst hst'
  have hapart : ∀ r ∈ q.reads, r.2 < st.compaction.waitMint ∨ st.compaction.mint ≤ r.1 := by
    intro r hr
    by_contra hcon
    have hover : st.overlaps st.compaction.waitMint st.compaction.mint := by
      refine any_eq_true.2 ⟨q, hq, any_eq_true.2 ⟨r, hr, ?_⟩⟩
      simp only [Bool.and_eq_true, decide_eq_true_eq]
      omega
    exact absurd hover (by simp [hnone])
  refine h.of_frame (fun x hclosed hneeds hprep => ?_) (fun hap _ => ?_)
  · refine ⟨hneeds.inHead, hneeds.minTime_le, fun _ => ?_, by simp⟩
    cases hlocked : q.locked with
    | true => exact hneeds.mint_le (.inl ⟨hlocked, by rw [hpc]; rfl⟩)
    | false =>
      have huse : q.pc = .inUse := by simpa [locked, hclosed] using hlocked
      simp only [Prepared, huse] at hprep
      obtain ⟨r, hr, hle, hge⟩ := hprep.registered
      have hwait := hneeds.waitMint_le hpc
      obtain hlt | hmint := hapart r hr
      · omega
      · exact hmint.trans hle
  · obtain ⟨r, hr, hindex, hino, hmaxt⟩ := hap.registered
    obtain hlt | hmint := hapart r hr
    · exact .inl (hmaxt ▸ hlt)
    · exact .inr ⟨hmint.trans hindex, hmint.trans hino⟩

lemma gcCheck (hcomp : CompactionInv st) (hpc : st.compaction.pc = .gc) (i : ℕ)
    (todo : List ℕ) (pendingCommit : Bool) : QuerierInv (st.gcCheck i todo pendingCommit) q := by
  refine h.of_frame (fun x _ hneeds _ => ?_) (fun hap hw => hap.apart hw) (fun _ => ?_)
    (fun _ => rfl) (fun x hx => inOOO_gcCheck.2 hx)
  · have hle : st.compaction.gcMint ≤ x.2 :=
      (hcomp.gcMint_le hpc).trans (hneeds.mint_le (.inr (by rw [hpc]; rfl)))
    exact ⟨inHead_gcCheck_of_le hneeds.inHead hle, hneeds.minTime_le, hneeds.mint_le,
      hneeds.waitMint_le⟩
  · simp [State.gcCheck, hpc]

lemma nextCompaction (hq : q ∈ st.queriers) (hcomp : CompactionInv st)
    (htimely : Timely opts st (.nextCompaction pendingCommit))
    (hnext : st.nextCompaction opts pendingCommit = some st') : QuerierInv st' q := by
  cases hpc : st.compaction.pc <;>
    simp only [State.nextCompaction, hpc, some.injEq, reduceCtorEq] at hnext
  case reload =>
    split_ifs at hnext with hany
    cases hnext
    -- No call has the lock.
    have hlocked : q.locked = false := by
      by_contra hlocked
      exact hany (any_eq_true.2 ⟨q, hq, by simpa using hlocked⟩)
    refine h.of_frame (fun x _ hneeds _ => ?_) (fun _ hw => nomatch hw) (fun hsaw => ?_)
    · exact ⟨hneeds.inHead, hneeds.minTime_le, by simp [hlocked], by simp⟩
    · exact absurd (locked_of_sawInProcess hsaw) (by simp [hlocked])
  case check =>
    subst hnext
    split_ifs
    all_goals exact h.of_quiet (by simp [hpc]) (by simp) (by simp [hpc])
  case publish =>
    subst hnext
    have hsettled := h.settled
    simp only [hpc] at hsettled
    refine h.of_frame (fun x _ hneeds _ => ?_) (fun _ hw => nomatch hw)
      (fun hsaw => absurd (by simp) (hsettled hsaw)) (fun hsaw => absurd (by simp) (hsettled hsaw))
    refine ⟨hneeds.inHead, hneeds.minTime_le, fun hor => hneeds.mint_le (.inl ?_), by simp⟩
    exact ⟨by simpa using hor, by rw [hpc]; rfl⟩
  case setInProcess | storeMinOOOTime | clearInProcess =>
    subst hnext
    exact h.of_quiet (by simp [hpc]) (by simp [hpc])
  case loadMinTime =>
    subst hnext
    refine h.of_frame (fun x _ hneeds _ => ?_) (fun _ hw => nomatch hw)
    refine ⟨hneeds.inHead, hneeds.minTime_le, fun hor => hneeds.mint_le (.inl ?_),
      fun _ => hneeds.minTime_le⟩
    exact ⟨by simpa using hor, by rw [hpc]; rfl⟩
  case wait =>
    split_ifs at hnext with hover
    exact h.wait_over hq hpc (by simpa using hover) (some.inj hnext).symm
  case storeMinTime =>
    subst hnext
    have hwaited : st.compaction.pc.waited := by rw [hpc]; rfl
    refine h.of_frame (fun x _ hneeds _ => ?_) (fun hap _ => hap.apart hwaited)
    have hle := hneeds.mint_le (.inr hwaited)
    exact ⟨hneeds.inHead, hle, fun _ => hle, by simp⟩
  case gc =>
    split at hnext
    · cases hnext
      exact h.gcCheck hcomp hpc _ _ _
    · cases hnext
      exact h.of_quiet (by simp [hpc]) (by simp [hpc])
  case advance =>
    split_ifs at hnext
    all_goals
      cases hnext
      exact h.of_quiet (by simp [hpc]) (by simp [hpc])
  case storeAdvanced =>
    subst hnext
    have hwaited : st.compaction.pc.waited := by rw [hpc]; rfl
    refine h.of_frame (fun x _ hneeds _ => ?_) (fun hap _ => hap.apart hwaited)
    refine ⟨hneeds.inHead, ?_, fun _ => hneeds.mint_le (.inr hwaited), by simp⟩
    obtain hlate | hle := hcomp.advanced hpc hneeds.inHead
    · exact htimely.1 hpc x hlate
    · exact hle

end

end QuerierInv

lemma InBlocks.append {bs : List Block} (h : InBlocks bs x) (bs' : List Block) :
    InBlocks (bs ++ bs') x :=
  h.imp fun _ hb => ⟨mem_append_left _ hb.1, hb.2⟩

namespace HeadInv

/-- What is not about the head. -/
lemma same (h : HeadInv st) (compaction : Compaction) (queriers : List Querier) (l : ℤ) (b : Bool) :
    HeadInv { st with
      compaction := compaction
      queriers := queriers
      lastMemoryTruncationTime := l
      memTruncationInProcess := b } :=
  ⟨h.stored, h.storedOOO, h.committed, h.bounds, h.refs, h.minTime_le⟩

lemma gcCheck (h : HeadInv st) (hcomp : CompactionInv st) (hpc : st.compaction.pc = .gc) (i : ℕ)
    (todo : List ℕ) (pendingCommit : Bool) : HeadInv (st.gcCheck i todo pendingCommit) where
  stored x hx := by
    obtain ⟨hin, hle⟩ | hin := h.stored x hx
    · by_cases hlt : x.2 < st.compaction.mint
      · exact .inr (hcomp.loaded (by rw [hpc]; rfl) x hx hlt)
      · have hgc := hcomp.gcMint_le hpc
        exact .inl ⟨inHead_gcCheck_of_le hin (hgc.trans (not_lt.1 hlt)), hle⟩
    · exact .inr hin
  storedOOO x hx := inOOO_gcCheck.2 (h.storedOOO x hx)
  committed x hx := h.committed x (inHead_gcCheck hx)
  bounds x hx := h.bounds x (inOOO_gcCheck.1 hx)
  refs x hx := h.refs x (hx.imp inHead_gcCheck inOOO_gcCheck.1)
  minTime_le := h.minTime_le

lemma nextCompaction (h : HeadInv st) (hcomp : CompactionInv st)
    (htimely : Timely opts st (.nextCompaction pendingCommit))
    (hnext : st.nextCompaction opts pendingCommit = some st') : HeadInv st' := by
  have hat := hcomp.atPC
  cases hpc : st.compaction.pc <;>
    simp only [State.nextCompaction, hpc, some.injEq, reduceCtorEq] at hnext
  case check | publish | setInProcess | loadMinTime | clearInProcess =>
    subst hnext
    exact h.same ..
  case reload =>
    split_ifs at hnext
    cases hnext
    exact ⟨fun x hx => (h.stored x hx).imp_right fun hin => hin.append _, h.storedOOO, h.committed,
      h.bounds, h.refs, h.minTime_le⟩
  case wait =>
    split_ifs at hnext
    cases hnext
    exact h.same ..
  case storeMinTime =>
    subst hnext
    refine ⟨fun x hx => ?_, h.storedOOO, h.committed, h.bounds, h.refs,
      hcomp.mint_le (by simp [hpc])⟩
    by_cases hlt : x.2 < st.compaction.mint
    · exact .inr (hcomp.loaded (by rw [hpc]; rfl) x hx hlt)
    · exact (h.stored x hx).imp_left fun hin => ⟨hin.1, not_lt.1 hlt⟩
  case gc =>
    split at hnext
    · cases hnext
      exact h.gcCheck hcomp hpc _ _ _
    · cases hnext
      exact h.same ..
  case advance =>
    split_ifs at hnext
    all_goals
      cases hnext
      exact h.same ..
  case storeAdvanced =>
    simp only [AtPC, hpc] at hat
    subst hnext
    refine ⟨fun x hx => (h.stored x hx).imp_left fun hin => ⟨hin.1, ?_⟩, h.storedOOO, h.committed,
      h.bounds, h.refs, hat.2.1⟩
    obtain hlate | hle := hcomp.advanced hpc hin.1
    · exact htimely.1 hpc x hlate
    · exact hle
  case storeMinOOOTime =>
    simp only [AtPC, hpc] at hat
    subst hnext
    refine ⟨h.stored, h.storedOOO, h.committed, fun x hx => ⟨?_, (h.bounds x hx).2⟩, h.refs,
      h.minTime_le⟩
    obtain htodo | hlate | hle := hat.2 x hx
    · simp [hat.1] at htodo
    · exact htimely.2 hpc x hlate
    refine le_trans ?_ hle
    unfold newMinOOOTime
    dsimp only
    split_ifs with hwindow
    · exact hwindow.le
    · exact le_rfl

end HeadInv

lemma foldl_min_le (m : ℤ) (ts : List ℤ) : ts.foldl min m ≤ m ∧ ∀ t ∈ ts, ts.foldl min m ≤ t := by
  induction ts generalizing m with
  | nil => exact ⟨le_rfl, nofun⟩
  | cons u us ih =>
    obtain ⟨hle, hall⟩ := ih (min m u)
    refine ⟨hle.trans (min_le_left m u), fun t ht => ?_⟩
    obtain rfl | ht := mem_cons.1 ht
    · exact hle.trans (min_le_right m t)
    · exact hall t ht

namespace CompactionInv

variable (h : CompactionInv st)
include h

/-- The check of one series. -/
lemma gcCheck (hpc : st.compaction.pc = .gc) {i : ℕ} {todo : List ℕ}
    (htodo : st.compaction.todo = i :: todo) (pendingCommit : Bool) :
    CompactionInv (st.gcCheck i todo pendingCommit) := by
  have hat := h.atPC
  simp only [AtPC, hpc] at hat
  obtain ⟨hgcMint, hchecked, hcheckedOOO⟩ := hat
  have hpc' : (st.gcCheck i todo pendingCommit).compaction.pc = .gc := hpc
  refine ⟨h.inProcess, h.published, h.mint_le, h.loaded, ?_⟩
  simp only [AtPC, hpc']
  refine ⟨hgcMint, ⟨?_, fun x hx => ?_⟩, fun x hx => ?_⟩
  · dsimp only [State.gcCheck]
    split_ifs
    · exact (min_le_left _ _).trans hchecked.actualMint_le
    · exact hchecked.actualMint_le
  · have hle : (st.gcCheck i todo pendingCommit).compaction.actualMint ≤
      st.compaction.actualMint := by
      dsimp only [State.gcCheck]
      split_ifs
      · exact min_le_left _ _
      · exact le_rfl
    by_cases hi : x.1 = i
    · -- The least time of the series is noted, since it has a chunk.
      subst hi
      refine .inr (.inr ?_)
      have hx : x.2 ∈ ((st.series x.1).truncateChunksBefore st.compaction.gcMint).times := by
        simpa [InHead, State.gcCheck] using hx
      obtain ⟨c, hc, -⟩ := mem_times.1 hx
      dsimp only [State.gcCheck]
      rw [if_pos (.inl (ne_nil_of_mem hc))]
      exact (min_le_right _ _).trans (minTime_le hx)
    · obtain hmem | hlate | hge := hchecked.inOrder x (inHead_gcCheck hx)
      · rw [htodo] at hmem
        exact .inl (mem_of_ne_of_mem hi hmem)
      · exact .inr (.inl hlate)
      · exact .inr (.inr (hle.trans hge))
  · have hfold := foldl_min_le st.compaction.minOOOTime
      ((st.series i).truncateChunksBefore st.compaction.gcMint).ooo
    by_cases hi : x.1 = i
    · subst hi
      refine .inr (.inr (hfold.2 x.2 ?_))
      simpa [InOOO, State.gcCheck] using hx
    obtain hmem | hlate | hge := hcheckedOOO x (inOOO_gcCheck.1 hx)
    · rw [htodo] at hmem
      exact .inl (mem_of_ne_of_mem hi hmem)
    · exact .inr (.inl hlate)
    · exact .inr (.inr (hfold.1.trans hge))

/-- A step within the time in which the flag is set. -/
lemma of_inProcess (hpc : st.compaction.pc.inProcess) (hat : AtPC st')
    (hpc' : st'.compaction.pc.inProcess := by rfl)
    (hflag : st'.memTruncationInProcess = st.memTruncationInProcess := by rfl)
    (hlast : st'.lastMemoryTruncationTime = st.lastMemoryTruncationTime := by rfl)
    (hmint : st'.compaction.mint = st.compaction.mint := by rfl)
    (hcommitted : st'.committed = st.committed := by rfl)
    (hblocks : st'.blocks = st.blocks := by rfl) : CompactionInv st' where
  inProcess := by rw [hflag, h.inProcess, hpc, hpc']
  published _ := by rw [hlast, hmint, h.published (published_of_inProcess hpc)]
  mint_le _ := by
    rw [hmint]
    exact h.mint_le (ne_idle_of_truncating (truncating_of_inProcess hpc))
  loaded _ := by
    rw [hmint, hcommitted, hblocks]
    exact h.loaded (truncating_of_inProcess hpc)
  atPC := hat

lemma nextCompaction
    (hnext : st.nextCompaction opts pendingCommit = some st') : CompactionInv st' := by
  have hflag := h.inProcess
  have hat := h.atPC
  cases hpc : st.compaction.pc <;>
    simp only [State.nextCompaction, hpc, some.injEq, reduceCtorEq] at hnext <;>
    simp only [AtPC, hpc] at hat
  case reload =>
    split_ifs at hnext
    cases hnext
    refine ⟨by rw [hflag, hpc]; rfl, by rintro ⟨⟩, fun _ => h.mint_le (by simp [hpc]),
      fun _ x hx hlt => ?_, trivial⟩
    obtain hblock | hblocks := hat x hx hlt
    · exact ⟨st.compaction.block, by simp, hblock⟩
    · exact hblocks.append _
  case check =>
    subst hnext
    split_ifs with hmin
    · exact ⟨by rw [hflag, hpc]; rfl, by rintro ⟨⟩, fun hne =>
        absurd rfl hne, by rintro ⟨⟩, trivial⟩
    · exact ⟨by rw [hflag, hpc]; rfl, by rintro ⟨⟩, fun _ => h.mint_le (by simp [hpc]),
        fun _ => h.loaded (by rw [hpc]; rfl), (not_le.1 hmin).le⟩
  case publish =>
    subst hnext
    exact ⟨by rw [hflag, hpc]; rfl, fun _ => rfl, fun _ => h.mint_le (by simp [hpc]),
      fun _ => h.loaded (by rw [hpc]; rfl), hat⟩
  case setInProcess =>
    subst hnext
    exact ⟨rfl, fun _ => h.published (by rw [hpc]; rfl), fun _ => h.mint_le (by simp [hpc]),
      fun _ => h.loaded (by rw [hpc]; rfl), hat⟩
  case loadMinTime =>
    subst hnext
    exact h.of_inProcess (by rw [hpc]; rfl) hat
  case wait =>
    split_ifs at hnext
    cases hnext
    exact h.of_inProcess (by rw [hpc]; rfl) trivial
  case storeMinTime =>
    subst hnext
    exact h.of_inProcess (by rw [hpc]; rfl) le_rfl
  case gc =>
    split at hnext
    · next i todo htodo =>
      cases hnext
      exact h.gcCheck hpc htodo _
    next htodo =>
    cases hnext
    obtain ⟨hgcMint, hchecked, hcheckedOOO⟩ := hat
    have hmint := h.mint_le (by simp [hpc])
    refine h.of_inProcess (by rw [hpc]; rfl) ⟨htodo, ⟨?_, fun x hx => ?_⟩, hcheckedOOO⟩
    · split_ifs
      · exact hgcMint.trans hmint
      · exact hchecked.actualMint_le
    -- Without any series left, the least time is that of the truncation.
    refine (hchecked.inOrder x hx).imp_right (Or.imp_right fun hle => ?_)
    dsimp only
    split_ifs with hmax
    · omega
    · exact hle
  case advance =>
    obtain ⟨htodo, hchecked, hcheckedOOO⟩ := hat
    split_ifs at hnext
    · cases hnext
      have hle : st.advancedMint opts ≤ st.compaction.actualMint := by
        unfold State.advancedMint
        split_ifs with hlt
        · exact le_rfl
        · exact not_lt.1 hlt
      refine h.of_inProcess (by rw [hpc]; rfl)
        ⟨htodo, hle.trans hchecked.actualMint_le, fun x hx => ?_, hcheckedOOO⟩
      obtain hmem | hlate | hge := hchecked.inOrder x hx
      · simp [htodo] at hmem
      · exact .inl hlate
      · exact .inr (hle.trans hge)
    · cases hnext
      exact h.of_inProcess (by rw [hpc]; rfl) ⟨htodo, hcheckedOOO⟩
  case storeAdvanced =>
    subst hnext
    exact h.of_inProcess (by rw [hpc]; rfl) ⟨hat.1, hat.2.2.2⟩
  case storeMinOOOTime =>
    subst hnext
    exact h.of_inProcess (by rw [hpc]; rfl) trivial
  case clearInProcess =>
    subst hnext
    exact ⟨rfl, by rintro ⟨⟩, fun hne => absurd rfl hne, by rintro ⟨⟩, trivial⟩

end CompactionInv

/-! ### Commits, and the start of compaction and garbage collection -/

variable {t : ℤ} {cut : Bool}

variable (happend : (st.series i).append t cut = some s)
include happend

lemma inHead_commit : InHead (st.commit i t s) x ↔ x = (i, t) ∨ InHead st x :=
  mem_update_iff_or (append_spec happend).1

lemma inOOO_commit : InOOO (st.commit i t s) x ↔ InOOO st x :=
  mem_update_iff (append_spec happend).2

omit happend

lemma inHead_commitOOO : InHead (st.commitOOO i t) x ↔ InHead st x :=
  mem_update_iff rfl

lemma inOOO_commitOOO : InOOO (st.commitOOO i t) x ↔ x = (i, t) ∨ InOOO st x :=
  mem_update_iff_or fun _ => mem_cons

/-- A step that is none of the compaction keeps its variables, but for the samples that come late.
-/
structure SameCompaction (st st' : State) : Prop where
  pc : st'.compaction.pc = st.compaction.pc
  block : st'.compaction.block = st.compaction.block
  mint : st'.compaction.mint = st.compaction.mint
  waitMint : st'.compaction.waitMint = st.compaction.waitMint
  gcMint : st'.compaction.gcMint = st.compaction.gcMint
  todo : st'.compaction.todo = st.compaction.todo
  actualMint : st'.compaction.actualMint = st.compaction.actualMint
  minOOOTime : st'.compaction.minOOOTime = st.compaction.minOOOTime
  newMint : st'.compaction.newMint = st.compaction.newMint
  blocks : st'.blocks = st.blocks
  lastMemoryTruncationTime : st'.lastMemoryTruncationTime = st.lastMemoryTruncationTime
  memTruncationInProcess : st'.memTruncationInProcess = st.memTruncationInProcess
  minTime_le : st'.minTime ≤ st.minTime

/-- New samples are not before the truncation, and late if their series was checked. -/
lemma CompactionInv.of_same (h : CompactionInv st) (hsame : SameCompaction st st')
    (hcommitted : ∀ x ∈ st'.committed, x ∈ st.committed ∨
      (st.compaction.pc ≠ .idle → st.compaction.mint ≤ x.2))
    (hin : ∀ x, InHead st' x → InHead st x ∨ x.1 ∈ st.compaction.todo ∨ x ∈ st'.compaction.late)
    (hlate : ∀ x ∈ st.compaction.late, x ∈ st'.compaction.late)
    (hooo : ∀ x, InOOO st' x → InOOO st x ∨ x.1 ∈ st.compaction.todo ∨ x ∈ st'.compaction.lateOOO)
    (hlateOOO : ∀ x ∈ st.compaction.lateOOO, x ∈ st'.compaction.lateOOO) : CompactionInv st' := by
  have hchecked : Checked st → Checked st' := by
    intro hchecked
    refine ⟨hsame.actualMint ▸ hchecked.actualMint_le, fun x hx => ?_⟩
    rw [hsame.todo, hsame.actualMint]
    obtain hx | htodo | hlater := hin x hx
    · exact (hchecked.inOrder x hx).imp_right (Or.imp_left (hlate x))
    · exact .inl htodo
    · exact .inr (.inl hlater)
  have hcheckedOOO : CheckedOOO st → CheckedOOO st' := by
    intro hchecked x hx
    rw [hsame.todo, hsame.minOOOTime]
    obtain hx | htodo | hlater := hooo x hx
    · exact (hchecked x hx).imp_right (Or.imp_left (hlateOOO x))
    · exact .inl htodo
    · exact .inr (.inl hlater)
  have hat := h.atPC
  refine ⟨?_, ?_, ?_, fun htrunc x hx hlt => ?_, ?_⟩
  · rw [hsame.memTruncationInProcess, hsame.pc]
    exact h.inProcess
  · rw [hsame.pc, hsame.lastMemoryTruncationTime, hsame.mint]
    exact h.published
  · rw [hsame.pc, hsame.mint]
    exact h.mint_le
  · rw [hsame.pc] at htrunc
    rw [hsame.mint] at hlt
    rw [hsame.blocks]
    obtain hx | hle := hcommitted x hx
    · exact h.loaded htrunc x hx hlt
    · exact absurd (hle (ne_idle_of_truncating htrunc)) (not_le.2 hlt)
  unfold AtPC at hat ⊢
  rw [hsame.pc]
  cases hpc : st.compaction.pc with
  | idle | check | storeMinTime | clearInProcess => trivial
  | reload =>
    simp only [hpc] at hat
    intro x hx hlt
    rw [hsame.mint] at hlt
    rw [hsame.block, hsame.blocks]
    obtain hx | hle := hcommitted x hx
    · exact hat x hx hlt
    · exact absurd (hle (by simp [hpc])) (not_le.2 hlt)
  | publish | setInProcess | loadMinTime | startGC =>
    simp only [hpc] at hat
    exact hsame.mint ▸ hsame.minTime_le.trans hat
  | wait =>
    simp only [hpc] at hat
    rw [hsame.waitMint, hsame.mint]
    exact hat
  | gc =>
    simp only [hpc] at hat
    rw [hsame.gcMint, hsame.mint]
    exact ⟨hat.1, hchecked hat.2.1, hcheckedOOO hat.2.2⟩
  | advance =>
    simp only [hpc] at hat
    rw [hsame.todo]
    exact ⟨hat.1, hchecked hat.2.1, hcheckedOOO hat.2.2⟩
  | storeAdvanced =>
    simp only [hpc] at hat
    obtain ⟨htodo, hle, hadvanced, hchecked⟩ := hat
    rw [hsame.todo, hsame.newMint]
    refine ⟨htodo, hle, fun x hx => ?_, hcheckedOOO hchecked⟩
    obtain hx | hmem | hlater := hin x hx
    · exact (hadvanced x hx).imp_left (hlate x)
    · simp [htodo] at hmem
    · exact .inl hlater
  | storeMinOOOTime =>
    simp only [hpc] at hat
    rw [hsame.todo]
    exact ⟨hat.1, hcheckedOOO hat.2⟩

lemma QuerierInv.of_same (h : QuerierInv st q) (hsame : SameCompaction st st')
    (hin : ∀ x, InHead st x → InHead st' x) (hooo : ∀ x, InOOO st x → InOOO st' x) :
    QuerierInv st' q := by
  refine h.of_frame (fun x _ hneeds _ => ⟨hin x hneeds.inHead,
    hsame.minTime_le.trans hneeds.minTime_le, ?_, ?_⟩) (fun hap => ?_) ?_
    (fun _ => hsame.lastMemoryTruncationTime) hooo
  · rw [hsame.pc, hsame.mint]
    exact hneeds.mint_le
  · rw [hsame.pc, hsame.waitMint]
    exact hneeds.waitMint_le
  · rw [hsame.pc, hsame.mint, hsame.waitMint]
    exact hap.apart
  · rw [hsame.pc]
    exact h.settled

variable (h : Inv st)
include h

lemma Inv.commit (hi : i ∈ st.refs) (happend : (st.series i).append t cut = some s)
    (htimely : st.compaction.pc ≠ .idle → st.compaction.mint ≤ t) : Inv (st.commit i t s) := by
  have hin : ∀ x, InHead (st.commit i t s) x ↔ x = (i, t) ∨ InHead st x := fun x =>
    inHead_commit happend
  have hooo : ∀ x, InOOO (st.commit i t s) x ↔ InOOO st x := fun x => inOOO_commit happend
  have hsame : SameCompaction st (st.commit i t s) :=
    ⟨rfl, rfl, rfl, rfl, rfl, rfl, rfl, rfl, rfl, rfl, rfl, rfl, min_le_left _ _⟩
  refine ⟨⟨fun x hx => ?_, fun x hx => (hooo x).2 (h.head.storedOOO x hx), fun x hx => ?_,
    fun x hx => h.head.bounds x ((hooo x).1 hx), fun x hx => ?_,
    (min_le_left _ _).trans h.head.minTime_le⟩, h.compaction.of_same hsame (fun x hx => ?_)
    (fun x hx => ?_) (fun x hx => ?_) (fun x hx => .inl ((hooo x).1 hx)) (fun _ => id),
    fun q hq => (h.queriers q hq).of_same hsame (fun x hx => (hin x).2 (.inr hx))
      fun x => (hooo x).2⟩
  · obtain rfl | hx := mem_cons.1 hx
    · exact .inl ⟨(hin _).2 (.inl rfl), min_le_right _ _⟩
    · exact (h.head.stored x hx).imp_left fun hand =>
        ⟨(hin x).2 (.inr hand.1), (min_le_left _ _).trans hand.2⟩
  · obtain rfl | hx := (hin x).1 hx
    · exact mem_cons_self
    · exact mem_cons_of_mem _ (h.head.committed x hx)
  · obtain hx | hx := hx
    · obtain rfl | hx := (hin x).1 hx
      · exact hi
      · exact h.head.refs x (.inl hx)
    · exact h.head.refs x (.inr ((hooo x).1 hx))
  · obtain rfl | hx := mem_cons.1 hx
    · exact .inr htimely
    · exact .inl hx
  · obtain rfl | hx := (hin x).1 hx
    · refine .inr ?_
      dsimp only [State.commit]
      split_ifs with htodo
      · exact .inl htodo
      · exact .inr mem_cons_self
    · exact .inl hx
  · dsimp only [State.commit]
    split_ifs
    · exact hx
    · exact mem_cons_of_mem _ hx

lemma Inv.commitOOO (hi : i ∈ st.refs) (t : ℤ) : Inv (st.commitOOO i t) := by
  have hin : ∀ x, InHead (st.commitOOO i t) x ↔ InHead st x := fun x => inHead_commitOOO
  have hooo : ∀ x, InOOO (st.commitOOO i t) x ↔ x = (i, t) ∨ InOOO st x := fun x => inOOO_commitOOO
  have hsame : SameCompaction st (st.commitOOO i t) :=
    ⟨rfl, rfl, rfl, rfl, rfl, rfl, rfl, rfl, rfl, rfl, rfl, rfl, le_rfl⟩
  refine ⟨⟨fun x hx => (h.head.stored x hx).imp_left fun hand => ⟨(hin x).2 hand.1, hand.2⟩,
    fun x hx => (hooo x).2 ((mem_cons.1 hx).imp_right (h.head.storedOOO x)),
    fun x hx => h.head.committed x ((hin x).1 hx), fun x hx => ?_, fun x hx => ?_,
    h.head.minTime_le⟩, h.compaction.of_same hsame (fun x hx => .inl hx)
    (fun x hx => .inl ((hin x).1 hx)) (fun _ => id) (fun x hx => ?_) (fun x hx => ?_),
    fun q hq => (h.queriers q hq).of_same hsame (fun x => (hin x).2) fun x hx =>
    (hooo x).2 (.inr hx)⟩
  · obtain rfl | hx := (hooo x).1 hx
    · exact ⟨min_le_right _ _, le_max_right _ _⟩
    · obtain ⟨hmin, hmax⟩ := h.head.bounds x hx
      exact ⟨(min_le_left _ _).trans hmin, hmax.trans (le_max_left _ _)⟩
  · obtain hx | hx := hx
    · exact h.head.refs x (.inl ((hin x).1 hx))
    · obtain rfl | hx := (hooo x).1 hx
      · exact hi
      · exact h.head.refs x (.inr hx)
  · obtain rfl | hx := (hooo x).1 hx
    · refine .inr ?_
      dsimp only [State.commitOOO]
      split_ifs with htodo
      · exact .inl htodo
      · exact .inr mem_cons_self
    · exact .inl hx
  · dsimp only [State.commitOOO]
    split_ifs
    · exact hx
    · exact mem_cons_of_mem _ hx

/-- A step that changes neither which samples there are nor the threads. -/
lemma Inv.of_same (hsame : SameCompaction st st')
    (hin : ∀ x, InHead st' x ↔ InHead st x) (hooo : ∀ x, InOOO st' x ↔ InOOO st x)
    (hrefs : st.refs ⊆ st'.refs) (hcommitted : st'.committed = st.committed)
    (hcommittedOOO : st'.committedOOO = st.committedOOO) (hmin : st'.minTime = st.minTime)
    (hminOOO : st'.minOOOTime = st.minOOOTime) (hmaxOOO : st'.maxOOOTime = st.maxOOOTime)
    (hlate : st'.compaction.late = st.compaction.late)
    (hlateOOO : st'.compaction.lateOOO = st.compaction.lateOOO)
    (hqueriers : st'.queriers = st.queriers) : Inv st' := by
  refine ⟨⟨fun x hx => ?_, fun x hx => ?_, fun x hx => ?_, fun x hx => ?_,
    fun x hx => hrefs ?_, ?_⟩,
    h.compaction.of_same hsame (fun x hx => .inl (hcommitted ▸ hx))
      (fun x hx => .inl ((hin x).1 hx))
      (fun x hx => hlate ▸ hx) (fun x hx => .inl ((hooo x).1 hx)) (fun x hx => hlateOOO ▸ hx),
    fun q hq => (h.queriers q (hqueriers ▸ hq)).of_same hsame (fun x => (hin x).2)
      fun x => (hooo x).2⟩
  · rw [hin, hmin, hsame.blocks]
    exact h.head.stored x (hcommitted ▸ hx)
  · exact (hooo x).2 (h.head.storedOOO x (hcommittedOOO ▸ hx))
  · exact hcommitted ▸ h.head.committed x ((hin x).1 hx)
  · rw [hminOOO, hmaxOOO]
    exact h.head.bounds x ((hooo x).1 hx)
  · exact h.head.refs x (hx.imp (hin x).1 (hooo x).1)
  · exact hmin ▸ h.head.minTime_le

/-- M-mapping does not change which samples there are. -/
lemma Inv.mmapChunks (i : ℕ) :
    Inv { st with series := Function.update st.series i (st.series i).mmapChunks } := by
  exact h.of_same ⟨rfl, rfl, rfl, rfl, rfl, rfl, rfl, rfl, rfl, rfl, rfl, rfl, le_rfl⟩
    (fun _ => mem_update_iff (times_mmapChunks _)) (fun _ => mem_update_iff rfl) (fun _ => id)
    rfl rfl rfl rfl rfl rfl rfl rfl

/-- A compaction begins. What is in the head before its time comes into the block. -/
lemma Inv.compact (hpc : st.compaction.pc = .idle) {mint : ℤ} (hmint : InRange mint) : Inv { st with
      compaction :=
        { st.compaction with
          block := .ofHead st.series st.minTime mint
          mint := mint
          pc := .reload } } := by
  refine ⟨h.head.same .., ⟨?_, nofun, fun _ => ?_, nofun, fun x hx hlt => ?_⟩, fun q hq => ?_⟩
  · rw [h.compaction.inProcess, hpc]
    rfl
  · have hlt := hmint.2
    dsimp only
    unfold maxInt64
    omega
  · refine (h.head.stored x hx).imp_left fun hand => mem_filter.2 ⟨hand.1, ?_⟩
    simpa using ⟨hand.2, hlt⟩
  · refine (h.queriers q hq).of_frame (fun x _ hneeds _ => ?_) (fun _ hw => nomatch hw)
    exact ⟨hneeds.inHead, hneeds.minTime_le, by simp, by simp⟩

/-- `gc` starts, and all series are still to be checked. -/
lemma Inv.startGC (hpc : st.compaction.pc = .startGC) {order : List ℕ}
    (horder : ∀ i ∈ st.refs, i ∈ order) : Inv { st with
      compaction :=
        { st.compaction with
          headMaxt := st.maxTime
          gcMint := st.minTime
          todo := order
          actualMint := maxInt64
          minOOOTime := maxInt64
          late := []
          lateOOO := []
          pc := .gc } } := by
  have hat := h.compaction.atPC
  simp only [AtPC, hpc] at hat
  refine ⟨h.head.same .., h.compaction.of_inProcess (by rw [hpc]; rfl)
      ⟨hat, ⟨le_rfl, fun x hx => .inl ?_⟩, fun x hx => .inl ?_⟩, fun q hq => ?_⟩
  · exact horder _ (h.head.refs x (.inl hx))
  · exact horder _ (h.head.refs x (.inr hx))
  · exact (h.queriers q hq).of_quiet (by simp [hpc]) (by simp [hpc])

/-- Only queriers change. -/
lemma Inv.of_queriers {qs : List Querier} (hqs : ∀ q ∈ qs, QuerierInv st q) :
    Inv { st with queriers := qs } := by
  have hsame : SameCompaction st { st with queriers := qs } :=
    ⟨rfl, rfl, rfl, rfl, rfl, rfl, rfl, rfl, rfl, rfl, rfl, rfl, le_rfl⟩
  exact ⟨h.head.same .., h.compaction.of_same hsame (fun _ => .inl) (fun _ => .inl) (fun _ => id)
    (fun _ => .inl) (fun _ => id), fun q hq => (hqs q hq).of_same hsame (fun _ => id) fun _ => id⟩

omit h

/-! ### All steps -/

lemma queriers_nextCompaction
    (hnext : st.nextCompaction opts pendingCommit = some st') : st'.queriers = st.queriers := by
  unfold nextCompaction at hnext
  dsimp only at hnext
  split at hnext <;> (try split at hnext) <;> cases hnext <;> rfl

lemma Inv.step (h : Inv st) {a : State.Action} (htimely : Timely opts st a)
    (hstep : st.step opts a = some st') : Inv st' := by
  cases a with
  | create i =>
    cases hstep
    exact h.of_same ⟨rfl, rfl, rfl, rfl, rfl, rfl, rfl, rfl, rfl, rfl, rfl, rfl, le_rfl⟩
      (fun _ => Iff.rfl) (fun _ => Iff.rfl) (subset_cons_self _ _) rfl rfl rfl rfl rfl rfl rfl rfl
  | commit i t cut =>
    simp only [State.step] at hstep
    split_ifs at hstep with hi
    obtain ⟨s, happend, rfl⟩ := map_eq_some_iff.1 hstep
    exact h.commit hi happend htimely
  | commitOOO i t =>
    simp only [State.step] at hstep
    split_ifs at hstep with hi
    cases hstep
    exact h.commitOOO hi t
  | mmapChunks i =>
    cases hstep
    exact h.mmapChunks i
  | compact mint =>
    simp only [State.step] at hstep
    split_ifs at hstep with hpc
    cases hstep
    exact h.compact hpc.1 hpc.2
  | startGC order =>
    simp only [State.step] at hstep
    split_ifs at hstep with hpc
    cases hstep
    exact h.startGC hpc.1 hpc.2
  | nextCompaction pendingCommit =>
    have hqueriers := queriers_nextCompaction hstep
    exact ⟨h.head.nextCompaction h.compaction htimely hstep, h.compaction.nextCompaction hstep,
      fun q hq => (h.queriers q (hqueriers ▸ hq)).nextCompaction
        (hqueriers ▸ hq) h.compaction htimely
        hstep⟩
  | querier mint maxt =>
    cases hstep
    refine h.of_queriers fun q hq => ?_
    obtain hq | hq := mem_append.1 hq
    · exact h.queriers q hq
    · obtain rfl := mem_singleton.1 hq
      exact .querier h.head h.compaction mint maxt
  | nextQuerier n =>
    simp only [State.step, bind_eq_bind, bind_eq_some_iff] at hstep
    obtain ⟨q, hq, q', hnext, hset⟩ := hstep
    cases hset
    refine h.of_queriers fun p hp => ?_
    obtain hp | rfl := mem_or_eq_of_mem_set hp
    · exact h.queriers p hp
    · exact (h.queriers q (mem_of_getElem? hq)).next h.head h.compaction hnext
  | closeQuerier n =>
    simp only [State.step, bind_eq_bind, bind_eq_some_iff] at hstep
    obtain ⟨q, hq, q', hclose, hset⟩ := hstep
    cases hset
    refine h.of_queriers fun p hp => ?_
    obtain hp | rfl := mem_or_eq_of_mem_set hp
    · exact h.queriers p hp
    · exact (h.queriers q (mem_of_getElem? hq)).close hclose

/-! ### Main result -/

/-- A state before any compaction and query: the committed samples are in the head, not below its
`minTime`, or in the blocks. -/
structure Ready (st : State) : Prop where
  head : HeadInv st
  idle : st.compaction.pc = .idle
  inProcess : st.memTruncationInProcess = false
  queriers : st.queriers = []

lemma Ready.inv (h : Ready st) : Inv st where
  head := h.head
  compaction :=
    { inProcess := by rw [h.inProcess, h.idle]; rfl
      published := by simp [h.idle, published]
      mint_le := fun hne => absurd h.idle hne
      loaded := by simp [h.idle]
      atPC := by simp [AtPC, h.idle] }
  queriers := by simp [h.queriers]

/-- In a run with timely commits, every querier reaches its samples while it is in use. And no chunk
is removed under a reader whose range overlaps, exactly if no chunk is removed under such a reader
of a querier that overlaps the out-of-order data and has given up its reader of the head. -/
theorem querier_safe_iff (opts : Options) (st₀ : State) (hready : Ready st₀)
    (as : List State.Action)
    (htimely : Transition.Along (State.step opts) (Timely opts) st₀ as) :
    (∀ st, Transition.run (State.step opts) st₀ as = some st → AllReached st) ∧
        Transition.Along (State.step opts) Protected st₀ as ↔
      Transition.Along (State.step opts) NoneCollided st₀ as := by
  have hstep : ∀ st a st', Inv st → Timely opts st a → step opts st a = some st' → Inv st' :=
    fun _ _ _ h ht hs => h.step ht hs
  have hiff : Transition.Along (step opts) Protected st₀ as ↔
      Transition.Along (step opts) NoneCollided st₀ as :=
    Transition.along_congr hstep (fun st a h => h.protected_iff a) hready.inv htimely
  constructor
  · intro h
    exact hiff.1 h.2
  · intro h
    refine ⟨fun st hrun => ?_, hiff.2 h⟩
    exact (Transition.run_invariant_of_along hstep hrun hready.inv htimely).allReached

/-! ### A truncation under a reader -/

instance instDecidableTimely : ∀ a, Decidable (Timely opts st a)
  | .commit _ _ _ => inferInstanceAs (Decidable (_ → _))
  | .nextCompaction _ => inferInstanceAs (Decidable (_ ∧ _))
  | .create _ | .commitOOO _ _ | .mmapChunks _ | .compact _ | .startGC _ | .querier _ _
  | .nextQuerier _ | .closeQuerier _ => isTrue trivial

instance (q : Querier) (st : State) (x : Sample) : Decidable (q.Reaches st x) :=
  inferInstanceAs (Decidable ((∃ b ∈ q.blocks, x.2 ∈ b.samples x.1) ∨
    _ ∧ x.2 ∈ (st.series x.1).times ∧ _))

instance instDecidableRemovesChunk : ∀ a, Decidable (RemovesChunk st a)
  | .nextCompaction _ => inferInstanceAs (Decidable (_ ∧ _))
  | .create _ | .commit _ _ _ | .commitOOO _ _ | .mmapChunks _ | .compact _ | .startGC _
  | .querier _ _ | .nextQuerier _ | .closeQuerier _ => isFalse id

instance : Decidable (OverlapsTruncation st q) :=
  inferInstanceAs (Decidable (_ ∧ _))

instance instDecidableProtected (a : State.Action) : Decidable (Protected st a) :=
  inferInstanceAs (Decidable (_ → _))

instance instDecidableNoneCollided (a : State.Action) : Decidable (NoneCollided st a) :=
  inferInstanceAs (Decidable (_ → _))

namespace Example

/-- Samples at 10, 20 and 150, and out of order at 30. -/
def series : Series where
  mmappedChunks := [⟨[10, 20], 10, 20, by decide, by decide⟩]
  headChunks := [Series.single 150]
  ooo := [30]
  ordered := by decide

def start : State where
  refs := [1]
  series := Function.update (fun _ => Series.empty) 1 series
  minTime := 10
  maxTime := 150
  minValidTime := 10
  minOOOTime := 30
  maxOOOTime := 30
  lastMemoryTruncationTime := minInt64
  memTruncationInProcess := false
  blocks := []
  queriers := []
  compaction := ⟨.idle, ⟨0, 0, fun _ => [], nofun⟩, 0, 0, 0, 0, [], 0, 0, 0, [], []⟩
  committed := [(1, 10), (1, 20), (1, 150)]
  committedOOO := [(1, 30)]

def options : Options := ⟨100, 100⟩

/-- The head is truncated at 100, and when the wait is over a querier is asked for, which takes some
steps. -/
def truncation (mint maxt : ℤ) (steps : ℕ) : List State.Action :=
  .compact 100 :: List.replicate 6 (.nextCompaction false) ++
    .querier mint maxt :: List.replicate steps (.nextQuerier 0) ++
    [.nextCompaction false, .startGC [1]] ++ List.replicate 6 (.nextCompaction false)

lemma inHead_start (h : InHead start x) : x ∈ start.committed := by
  obtain ⟨i, t⟩ := x
  by_cases hi : i = 1
  · subst hi
    have ht : t ∈ [10, 20, 150] := h
    simpa [start] using ht
  · simp [InHead, start, hi, times_empty] at h

lemma inOOO_start (h : InOOO start x) : x ∈ start.committedOOO := by
  obtain ⟨i, t⟩ := x
  by_cases hi : i = 1
  · subst hi
    have ht : t ∈ [30] := h
    simpa [start] using ht
  · simp [InOOO, start, hi, empty] at h

lemma ready : Ready start where
  head :=
    { stored := by
        have hin : ∀ x ∈ start.committed, x.2 ∈ (start.series x.1).times ∧ start.minTime ≤ x.2 := by
          decide
        exact fun x hx => .inl (hin x hx)
      storedOOO := by
        have hin : ∀ x ∈ start.committedOOO, x.2 ∈ (start.series x.1).ooo := by decide
        exact hin
      committed := fun x hx => inHead_start hx
      bounds := by
        have hbounds : ∀ x ∈ start.committedOOO, start.minOOOTime ≤ x.2 ∧
          x.2 ≤ start.maxOOOTime := by
          decide
        exact fun x hx => hbounds x (inOOO_start hx)
      refs := by
        have hrefs : ∀ x ∈ start.committed ++ start.committedOOO, x.1 ∈ start.refs := by decide
        exact fun x hx => hrefs x (mem_append.2 (hx.imp inHead_start inOOO_start))
      minTime_le := by decide }
  idle := rfl
  inProcess := rfl
  queriers := rfl

end Example

open Example in
/-- The querier is for the times from 20 to 50, where there is an out-of-order sample. Its range
ends before the truncation, so that it gives up its reader of the head. Then it is wrapped with a
new reader, and the truncation removes the chunk of the sample at 20. -/
theorem querier_reader_truncated :
    Ready start ∧ Transition.Along (State.step options) (Timely options) start
      (truncation 20 50 10) ∧
      (Transition.run (State.step options) start (truncation 20 50 10)).isSome ∧
      ¬Transition.Along (State.step options) Protected start (truncation 20 50 10) :=
  ⟨ready, by decide +kernel, by decide +kernel, by decide +kernel⟩

open Example in
/-- A sample at 60 is committed to a new series after the block up to 100 was written. The
truncation removes its chunk, and a querier that is opened then finds it nowhere. -/
theorem querier_misses_late_commit :
    Ready start ∧ ∃ st ∈ Transition.run (State.step options) start
        ([.compact 100, .create 2, .commit 2 60 false] ++
          List.replicate 7 (.nextCompaction false) ++
          .startGC [1, 2] :: List.replicate 7 (.nextCompaction false) ++
          .querier 20 200 :: List.replicate 8 (.nextQuerier 0)),
      ∃ q ∈ st.queriers, q.pc = .inUse ∧ (2, 60) ∈ q.committed ∧ q.mint ≤ 60 ∧ 60 ≤ q.maxt ∧
        ¬q.Reaches st (2, 60) :=
  ⟨ready, by decide +kernel⟩

open Example in
/-- A range that goes on after the truncation gets a new reader from there on. -/
theorem querier_safe_across :
    Ready start ∧ Transition.Along (State.step options) (Timely options) start
      (truncation 20 200 12) ∧
      (Transition.run (State.step options) start (truncation 20 200 12)).isSome ∧
      (∀ st, Transition.run (State.step options) start (truncation 20 200 12) = some st →
        AllReached st) ∧
      Transition.Along (State.step options) Protected start (truncation 20 200 12) := by
  have htimely : Transition.Along (step options) (Timely options) start (truncation 20 200 12) := by
    decide +kernel
  exact ⟨ready, htimely, by decide +kernel,
    (querier_safe_iff options start ready (truncation 20 200 12) htimely).2 (by decide +kernel)⟩

end Prometheus.Tsdb.MemoryTruncation
