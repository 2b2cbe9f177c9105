import Prometheus.Tsdb.AppendSteps
import Prometheus.Tsdb.SeriesAppend

/-!
# What a commit stores

An appender accepts a sample if it is late enough for what the series holds. Its samples must then
be stored by `Commit`, in the order of the calls. But `Commit` does not keep this order: it adds all
floats first, then all histograms, and all float histograms in the end (`commitOrder`). A sample
that comes after a later one of its series is dropped, since a series only takes samples that are
later than all it has. So an accepted sample is stored if and only if no later sample of the series
was accepted whose kind is committed before (`commit_stores_iff`).

There is a second way to lose a sample. A series without a chunk in memory accepts any sample, but
drops it if a chunk on disk reaches beyond its time.
-/

namespace Prometheus.Tsdb

open GoInt Record AppendEvent List HeadAppender Head SampleValue

/-- The buffers in the order in which `Commit` goes through them. -/
def SampleValue.kind : SampleValue → ℕ
  | .float _ => 0
  | .histogram _ => 1
  | .floatHistogram _ => 2

/-- The same value, or histograms that the code takes for equal. -/
def SampleValue.Same : SampleValue → SampleValue → Prop
  | .histogram h, .histogram h' => h = h' ∨ h.equals h'
  | .floatHistogram fh, .floatHistogram fh' => fh = fh' ∨ fh.equals fh'
  | v, v' => v = v'

lemma SampleValue.Same.refl (v : SampleValue) : v.Same v := by
  cases v with
  | float v => rfl
  | histogram h => exact .inl rfl
  | floatHistogram fh => exact .inl rfl

/-- A sample of a series is the accepted one. -/
def Stores (x : RefValue SampleValue) (p : ℤ × SampleValue) : Prop :=
  x.t = p.1 ∧ x.v.Same p.2

/-- All series registered in the head are well-formed, and refs are not given twice. -/
def Head.WF (h : Head) : Prop :=
  ∀ ref ∈ h.series, ref ≤ h.lastSeriesID ∧ (h.mem ref).WF

/-! ### The order of a commit -/

def RefValue.map {α β : Type} (f : α → β) (x : RefValue α) : RefValue β :=
  ⟨x.ref, x.t, f x.v⟩

namespace HeadAppender

/-- All samples of an appender in the order in which they are committed. -/
def commitOrder (a : HeadAppender) : List (RefValue SampleValue) :=
  a.samples.map (·.map .float) ++ a.histograms.map (·.map .histogram) ++
    a.floatHistograms.map (·.map .floatHistogram)

variable (a : HeadAppender) (h : Head) (ref : ℕ)

lemma foldl_commitTurn {α : Type} (value : α → SampleValue)
    (xs : List (RefValue α)) (acc : CommitContext) :
    xs.foldl (a.commitTurn value) acc = (xs.map (·.map value)).foldl (a.commitTurn id) acc := by
  rw [foldl_map]
  rfl

/-- The three loops are one over all samples. -/
lemma commit_loops (acc : CommitContext) :
    a.commitFloatHistograms (a.commitHistograms (a.commitSamples acc)) =
      a.commitOrder.foldl (a.commitTurn id) acc := by
  rw [commitFloatHistograms, commitHistograms, commitSamples, foldl_commitTurn a .float,
    foldl_commitTurn a .histogram, foldl_commitTurn a .floatHistogram, commitOrder,
    foldl_append, foldl_append]

/-- The samples of one series among some. -/
def samplesOf (ref : ℕ) (xs : List (RefValue SampleValue)) : List (ℤ × SampleValue) :=
  (xs.filter (·.ref = ref)).map fun x => (x.t, x.v)

/-- A series gets its own samples, in their order. -/
lemma mem_foldl_commitTurn (xs : List (RefValue SampleValue))
    (acc : CommitContext) :
    (xs.foldl (a.commitTurn id) acc).head.mem ref =
      a.commitValues acc.head.opts (samplesOf ref xs) (acc.head.mem ref) := by
  induction xs generalizing acc with
  | nil => rfl
  | cons x xs ih =>
    rw [foldl_cons, ih, samplesOf, samplesOf, filter_cons]
    by_cases hx : x.ref = ref
    · rw [if_pos (decide_eq_true hx), map_cons, commitValues, commitValues, foldl_cons]
      subst hx
      simp [commitTurn]
      rfl
    · rw [if_neg (by simpa using hx), commitTurn, update_mem_of_ne _ (Ne.symm hx)]
      rfl

lemma unmark_eq (refs : List ℕ) (h : Head) : unmark refs h = { h with mem := fun ref =>
      if ref ∈ refs then { h.mem ref with pendingCommit := false } else h.mem ref } := by
  induction refs generalizing h with
  | nil => simp [unmark]
  | cons r refs ih =>
    rw [unmark, foldl_cons]
    refine (ih _).trans ?_
    congr 1
    funext ref
    by_cases hr : ref = r
    · subst hr
      simp
    · simp [update_mem_of_ne _ hr, hr]

lemma unmark_append (refs refs' : List ℕ) (h : Head) :
    unmark (refs ++ refs') h = unmark refs' (unmark refs h) :=
  foldl_append

lemma log_snd (logged : ℕ) (records : List WalRecord) :
    (h.log logged records).2 = { h with wal := h.wal.map (· ++ records.take logged) } := by
  rw [log]
  obtain ⟨opts, chunkRange, minTime, maxTime, minValidTime, lastSeriesID, mem,
    series, wal, iso⟩ := h
  cases wal <;> rfl

/-- What comes after the samples does not touch the chunks. -/
lemma unmark_chunks (refs : List ℕ) (h : Head) (ref : ℕ) :
    ((unmark refs h).mem ref).chunks = (h.mem ref).chunks := by
  rw [unmark_eq]
  dsimp only
  split <;> rfl

lemma commitMetadata_chunks : ((a.commitMetadata h).mem ref).chunks = (h.mem ref).chunks := by
  rw [commitMetadata]
  generalize a.metadata = ms
  induction ms generalizing h with
  | nil => rfl
  | cons m ms ih =>
    rw [foldl_cons]
    refine (ih _).trans ?_
    by_cases hr : ref = m.1
    · rw [hr, update_mem_self]
    · rw [update_mem_of_ne _ hr]

lemma commitLogged_chunks :
    ((a.commitLogged h).mem ref).chunks =
      (a.commitValues h.opts (samplesOf ref a.commitOrder) (h.mem ref)).chunks := by
  have hloops := a.commit_loops ⟨h, Head.maxInt64, minInt64⟩
  have hmem := a.mem_foldl_commitTurn ref a.commitOrder ⟨h, Head.maxInt64, minInt64⟩
  rw [← hloops] at hmem
  have hchunks : ((a.commitLogged h).mem ref).chunks =
      ((a.commitFloatHistograms (a.commitHistograms (a.commitSamples
        ⟨h, Head.maxInt64, minInt64⟩))).head.mem ref).chunks :=
    (unmark_chunks _ _ ref).trans (a.commitMetadata_chunks _ ref)
  rw [hchunks, hmem]

lemma commitLogged_samples :
    ((a.commitLogged h).mem ref).samples =
      (a.commitValues h.opts (samplesOf ref a.commitOrder) (h.mem ref)).samples :=
  congrArg SeriesChunks.samples (a.commitLogged_chunks h ref)

/-- A successful commit has logged its records. -/
lemma commit_eq {a : HeadAppender} {logged rollbackLogged : ℕ} {h : Head}
    (hok : (a.commit logged rollbackLogged h).1 = true) :
    ∃ wal, (a.commit logged rollbackLogged h).2 = a.commitLogged { h with wal := wal } := by
  rw [commit] at hok ⊢
  cases hlog : h.log logged a.logRecords with
  | mk ok h' =>
    rw [hlog] at hok
    cases ok with
    | false => cases hok
    | true =>
      rw [log] at hlog
      split at hlog
      · obtain ⟨-, rfl⟩ := Prod.mk.inj hlog
        exact ⟨h.wal, rfl⟩
      · obtain ⟨-, rfl⟩ := Prod.mk.inj hlog
        exact ⟨_, rfl⟩

end HeadAppender

/-! ### What the events of a run leave for the commit -/

namespace HeadAppender

/-- The buffer for a kind of samples. -/
def ofKind (a : HeadAppender) : ℕ → List (RefValue SampleValue)
  | 0 => a.samples.map (·.map .float)
  | 1 => a.histograms.map (·.map .histogram)
  | 2 => a.floatHistograms.map (·.map .floatHistogram)
  | _ => []

lemma ofKind_buffer (a : HeadAppender) (x : RefValue SampleValue) (k : ℕ) :
    (a.buffer x).ofKind k = a.ofKind k ++ [x].filter (·.v.kind = k) := by
  obtain ⟨ref, t, v⟩ := x
  match k with
  | 0 => cases v <;> simp [buffer, ofKind, RefValue.map, kind, seen]
  | 1 => cases v <;> simp [buffer, ofKind, RefValue.map, kind, seen]
  | 2 => cases v <;> simp [buffer, ofKind, RefValue.map, kind, seen]
  | k + 3 => cases v <;> simp [ofKind, kind]

lemma ofKind_congr {a a' : HeadAppender} (hsamples : a'.samples = a.samples)
    (hhistograms : a'.histograms = a.histograms)
    (hfloatHistograms : a'.floatHistograms = a.floatHistograms) (k : ℕ) :
    a'.ofKind k = a.ofKind k := by
  match k with
  | 0 => rw [ofKind, ofKind, hsamples]
  | 1 => rw [ofKind, ofKind, hhistograms]
  | 2 => rw [ofKind, ofKind, hfloatHistograms]
  | k + 3 => rfl

end HeadAppender

variable {s s' : HeadAppender × Head} {es : List AppendEvent} {h : Head}

/-- The buffers have the accepted samples, each those of its kind in the order of the calls. -/
lemma Runs.ofKind (h : Runs s es s') (k : ℕ) :
    s'.1.ofKind k = s.1.ofKind k ++ (accepted es).filter (·.v.kind = k) := by
  induction h with
  | nil => simp [accepted]
  | @cons s s' e es he hes ih =>
    obtain ⟨a, h⟩ := s
    rw [ih]
    cases e with
    | accept x =>
      have hacc : accepted (.accept x :: es) = x :: accepted es := rfl
      rw [hacc, apply, a.ofKind_buffer, append_assoc, ← filter_append, singleton_append]
    | note a' =>
      rw [apply, ofKind_congr he.samples he.histograms he.floatHistograms]
      rfl
    | create lset =>
      rw [apply, ofKind_congr rfl rfl rfl]
      rfl
    | skipID => rfl
    | refuse ref => rfl
    | preset ref created last lastFloat => rfl

/-- An appender starts with empty buffers. -/
lemma Runs.ofKind_appender {pick : Option ℕ}
    {s : HeadAppender × Head} (hes : Runs (h.appender pick) es s) (k : ℕ) :
    s.1.ofKind k = (accepted es).filter (·.v.kind = k) := by
  have hempty : (h.appender pick).1.ofKind k = [] := by
    match k with
    | 0 | 1 | 2 | k + 3 => rfl
  rw [hes.ofKind k, hempty, nil_append]

lemma Runs.conditions (h : Runs s es s') :
    s'.1.oooTimeWindow = s.1.oooTimeWindow ∧ s'.1.minValidTime = s.1.minValidTime := by
  refine h.induction (P := fun s' => s'.1.oooTimeWindow = s.1.oooTimeWindow ∧
    s'.1.minValidTime = s.1.minValidTime) ?_ ⟨rfl, rfl⟩
  rintro ⟨a, h⟩ e hs he
  cases e with
  | accept x =>
    obtain ⟨ref, t, v⟩ := x
    cases v <;> exact hs
  | note a' => exact ⟨he.oooTimeWindow.trans hs.1, he.minValidTime.trans hs.2⟩
  | create lset => exact hs
  | skipID => exact hs
  | refuse ref => exact hs
  | preset ref created last lastFloat => exact hs

lemma apply_series (s : HeadAppender × Head) (e : AppendEvent) :
    ∃ refs, (apply s e).2.series = s.2.series ++ refs := by
  obtain ⟨a, h⟩ := s
  cases e with
  | create lset => exact ⟨[h.lastSeriesID + 1], rfl⟩
  | skipID => exact ⟨[], (append_nil _).symm⟩
  | accept x =>
    refine ⟨[], ?_⟩
    rw [apply, append_nil]
    split <;> rfl
  | refuse ref => exact ⟨[], (append_nil _).symm⟩
  | preset ref created last lastFloat => exact ⟨[], (append_nil _).symm⟩
  | note a' => exact ⟨[], (append_nil _).symm⟩

lemma Runs.series_subset (h : Runs s es s') : s.2.series ⊆ s'.2.series := by
  induction h with
  | nil => exact fun _ hx => hx
  | @cons s s' e es he hes ih =>
    obtain ⟨refs, hrefs⟩ := apply_series s e
    exact fun x hx => ih (hrefs ▸ mem_append_left refs hx)

/-- Accepted samples belong to registered series, and are within bounds. -/
lemma Runs.accepted_spec (h : Runs s es s') (hooo : s.1.oooTimeWindow = 0) :
    ∀ x ∈ accepted es, x.ref ∈ s'.2.series ∧ s'.1.minValidTime ≤ x.t := by
  induction h with
  | nil => intro x hx; cases hx
  | @cons s s' e es he hes ih =>
    have hcond := (Runs.single he).conditions
    intro x hx
    have hrest := ih (hcond.1.trans hooo) x
    cases e with
    | accept y =>
      rcases mem_cons.1 hx with rfl | hx
      · rw [hes.conditions.2, hcond.2]
        exact ⟨(Runs.single he |>.append hes).series_subset he.1, he.2 hooo⟩
      · exact hrest hx
    | create lset => exact hrest hx
    | skipID => exact hrest hx
    | refuse ref => exact hrest hx
    | preset ref created last lastFloat => exact hrest hx
    | note a' => exact hrest hx

/-- A change of a series that leaves its chunks alone. -/
lemma Head.WF.update (hwf : h.WF) (ref : ℕ) {f : HeadSeries → HeadSeries}
    (hf : ∀ s, (f s).chunks = s.chunks) : (h.update ref f).WF := by
  intro r hr
  obtain ⟨hle, hs⟩ := hwf r hr
  refine ⟨hle, hs.of_chunks ?_⟩
  by_cases hrr : r = ref
  · rw [hrr, update_mem_self, hf]
  · rw [update_mem_of_ne _ hrr]

lemma HeadSeries.presetLast_chunks (s : HeadSeries) (created : Bool)
    (last lastFloat : Option Histogram) :
    (s.presetLast created last lastFloat).chunks = s.chunks := by
  rw [presetLast]
  split <;> rfl

lemma HeadSeries.presetLast_lset (s : HeadSeries) (created : Bool)
    (last lastFloat : Option Histogram) :
    (s.presetLast created last lastFloat).lset = s.lset := by
  rw [presetLast]
  split <;> rfl

lemma HeadAppender.buffer_seriesRefs (a : HeadAppender) (x : RefValue SampleValue) :
    (a.buffer x).seriesRefs = a.seriesRefs := by
  rw [buffer]
  split <;> rfl

lemma Head.WF.create (hwf : h.WF) (lset : List Label) : (h.create lset).WF := by
  intro r hr
  rcases mem_append.1 hr with hr | hr
  · obtain ⟨hle, hs⟩ := hwf r hr
    have hne : r ≠ h.lastSeriesID + 1 := by omega
    refine ⟨Nat.le_succ_of_le hle, ?_⟩
    rw [h.create_mem_of_ne hne]
    exact hs
  · rw [mem_singleton.1 hr, h.create_mem_self]
    exact ⟨le_rfl, HeadSeries.wf_new _ _ _⟩

lemma Runs.wf (h : Runs s es s') (hwf : s.2.WF) : s'.2.WF := by
  refine h.induction (P := fun s => s.2.WF) ?_ hwf
  rintro ⟨a, h⟩ e hwf he
  cases e with
  | create lset => exact hwf.create lset
  | skipID =>
    intro r hr
    exact ⟨Nat.le_succ_of_le (hwf r hr).1, (hwf r hr).2⟩
  | accept x =>
    rw [apply]
    split
    · exact hwf.update x.ref fun _ => rfl
    · exact hwf
  | refuse ref => exact hwf.update ref fun _ => rfl
  | preset ref created last lastFloat =>
    exact hwf.update ref (f := (·.presetLast created last lastFloat))
      fun s => s.presetLast_chunks created last lastFloat
  | note a' => exact hwf

/-! ### What is stored -/

section Match

variable {α β : Type} {R : α → β → Prop} {f : α → ℤ} {g : β → ℤ}

/-- If both lists are sorted by times and only elements of the same time match, then matches of all
elements are matches in order. -/
lemma sublistForall₂_iff_forall_exists {xs : List α} {ys : List β}
    (hxs : xs.Pairwise (f · < f ·)) (hys : ys.Pairwise (g · < g ·))
    (hR : ∀ x y, R x y → f x = g y) :
    List.SublistForall₂ R xs ys ↔ ∀ x ∈ xs, ∃ y ∈ ys, R x y := by
  constructor
  · intro h x hx
    obtain ⟨zs, hzs, hsub⟩ := sublistForall₂_iff.1 h
    obtain ⟨y, hy, hxy⟩ : ∃ y ∈ zs, R x y := by
      clear h hsub hxs
      induction hzs with
      | nil => cases hx
      | cons hab _ ih =>
        rcases mem_cons.1 hx with rfl | hx
        · exact ⟨_, mem_cons_self, hab⟩
        · obtain ⟨y, hy, hxy⟩ := ih hx
          exact ⟨y, mem_cons_of_mem _ hy, hxy⟩
    exact ⟨y, hsub.subset hy, hxy⟩
  · intro h
    induction ys generalizing xs with
    | nil =>
      cases xs with
      | nil => exact .nil
      | cons x xs =>
        obtain ⟨y, hy, -⟩ := h x mem_cons_self
        cases hy
    | cons y ys ih =>
      obtain ⟨hylt, hys'⟩ := pairwise_cons.1 hys
      cases xs with
      | nil => exact .nil
      | cons x xs =>
        obtain ⟨hxlt, hxs'⟩ := pairwise_cons.1 hxs
        obtain ⟨z, hz, hxz⟩ := h x mem_cons_self
        rcases mem_cons.1 hz with rfl | hzs
        · -- The first elements match, so the others match later ones.
          refine .cons hxz (ih hxs' hys' fun x' hx' => ?_)
          obtain ⟨z', hz', hxz'⟩ := h x' (mem_cons_of_mem _ hx')
          rcases mem_cons.1 hz' with rfl | hz'
          · have hlt := hxlt x' hx'
            rw [hR _ _ hxz, hR _ _ hxz'] at hlt
            exact absurd hlt (lt_irrefl _)
          · exact ⟨z', hz', hxz'⟩
        -- The first element of `ys` is before all of `xs`.
        refine .cons_right (ih hxs hys' fun x' hx' => ?_)
        obtain ⟨z', hz', hxz'⟩ := h x' hx'
        rcases mem_cons.1 hz' with rfl | hz'
        · have hle : f x ≤ f x' := by
            rcases mem_cons.1 hx' with rfl | hx'
            · exact le_rfl
            · exact (hxlt x' hx').le
          have hlt := hylt z hzs
          rw [← hR _ _ hxz, ← hR _ _ hxz'] at hlt
          exact absurd hlt (not_lt.2 hle)
        · exact ⟨z', hz', hxz'⟩

end Match

/-- An accepted sample is stored by the commit: it is later than the series, and no later sample of
the series is of a kind that is committed before. -/
def Kept (r : AppendRun) (x : RefValue SampleValue) : Prop :=
  (r.head.mem x.ref).maxTime < x.t ∧
    ∀ y ∈ r.accepted, y.ref = x.ref → x.t < y.t → x.v.kind ≤ y.v.kind

variable {a : HeadAppender}

variable {xs : List (RefValue SampleValue)}

variable (hkinds : ∀ k, a.ofKind k = xs.filter (·.v.kind = k))
include hkinds

/-- The order of a commit, for samples whose times increase in the order of the calls. -/
lemma pairwise_commitOrder {ref : ℕ} (hinc : (xs.filter (·.ref = ref)).Pairwise (·.t < ·.t)) :
    (a.commitOrder.filter (·.ref = ref)).Pairwise fun x y =>
      x.v.kind < y.v.kind ∨ x.v.kind = y.v.kind ∧ x.t < y.t := by
  have horder : a.commitOrder = a.ofKind 0 ++ a.ofKind 1 ++ a.ofKind 2 := rfl
  have hkind : ∀ k, ((a.ofKind k).filter (·.ref = ref)).Pairwise fun x y =>
      x.v.kind < y.v.kind ∨ x.v.kind = y.v.kind ∧ x.t < y.t := by
    intro k
    rw [hkinds k, filter_filter]
    have hsub : (xs.filter fun x => decide (x.ref = ref) && decide (x.v.kind = k)).Sublist
        (xs.filter (·.ref = ref)) := by
      rw [← filter_filter, filter_comm]
      exact filter_sublist
    refine (hinc.sublist hsub).imp_of_mem ?_
    intro x y hx hy hlt
    have hx := mem_filter.1 hx
    have hy := mem_filter.1 hy
    simp only [Bool.and_eq_true, decide_eq_true_eq] at hx hy
    exact .inr ⟨hx.2.2.trans hy.2.2.symm, hlt⟩
  have hcross : ∀ k l, k < l → ∀ x ∈ (a.ofKind k).filter (·.ref = ref),
      ∀ y ∈ (a.ofKind l).filter (·.ref = ref),
        x.v.kind < y.v.kind ∨ x.v.kind = y.v.kind ∧ x.t < y.t := by
    intro k l hkl x hx y hy
    rw [hkinds] at hx hy
    have hx := (mem_filter.1 (mem_filter.1 hx).1).2
    have hy := (mem_filter.1 (mem_filter.1 hy).1).2
    simp only [decide_eq_true_eq] at hx hy
    exact .inl (by omega)
  rw [horder, filter_append, filter_append]
  refine pairwise_append.2 ⟨pairwise_append.2 ⟨hkind 0, hkind 1, hcross 0 1 (by omega)⟩,
    hkind 2, ?_⟩
  intro x hx y hy
  rcases mem_append.1 hx with hx | hx
  · exact hcross 0 2 (by omega) x hx y hy
  · exact hcross 1 2 (by omega) x hx y hy

lemma mem_commitOrder_iff (x : RefValue SampleValue) : x ∈ a.commitOrder ↔ x ∈ xs := by
  have horder : a.commitOrder = a.ofKind 0 ++ a.ofKind 1 ++ a.ofKind 2 := rfl
  rw [horder]
  simp only [hkinds, mem_append, mem_filter, decide_eq_true_eq]
  cases x.v <;> simp [kind]

omit hkinds

/-- The samples that a commit adds to a series. -/
lemma mem_later_commitOrder_iff {r : AppendRun}
    (hkinds : ∀ k, a.ofKind k = r.accepted.filter (·.v.kind = k))
    (hinc : ∀ ref, (r.accepted.filter (·.ref = ref)).Pairwise (·.t < ·.t))
    {x : RefValue SampleValue} (hx : x ∈ r.accepted) :
    (∃ p ∈ later (r.head.mem x.ref).maxTime (HeadAppender.samplesOf x.ref a.commitOrder),
      Stores x p) ↔ Kept r x := by
  set order := a.commitOrder.filter (·.ref = x.ref) with horder
  have hpair := pairwise_commitOrder hkinds (hinc x.ref)
  rw [← horder] at hpair
  have hmemOrder : ∀ y, y ∈ order ↔ y ∈ r.accepted ∧ y.ref = x.ref := by
    intro y
    rw [horder, mem_filter, mem_commitOrder_iff hkinds, decide_eq_true_eq]
  -- The samples of the series have different times.
  have hinj : ∀ y ∈ order, ∀ z ∈ order, y.t = z.t → y = z := by
    intro y hy z hz
    have hnodup : ((r.accepted.filter (·.ref = x.ref)).map (·.t)).Nodup :=
      (pairwise_map.2 (hinc x.ref)).imp ne_of_lt
    have hfilter : ∀ y ∈ order, y ∈ r.accepted.filter (·.ref = x.ref) := by
      intro y hy
      rwa [mem_filter, decide_eq_true_eq, ← hmemOrder]
    exact inj_on_of_nodup_map hnodup (hfilter y hy) (hfilter z hz)
  have hxorder : x ∈ order := (hmemOrder x).2 ⟨hx, rfl⟩
  constructor
  · rintro ⟨p, hp, ht, -⟩
    obtain ⟨before, after, heq, hlast, hbefore⟩ := mem_later_iff.1 hp
    obtain ⟨front, back, hfront, rfl, hback⟩ := map_eq_append_iff.1 heq
    obtain ⟨y, back, rfl, rfl, rfl⟩ := map_eq_cons_iff.1 hback
    have hy : y ∈ order := by
      rw [horder, hfront]
      simp
    obtain rfl : x = y := hinj x hxorder y hy ht
    refine ⟨hlast, fun z hz href hlt => ?_⟩
    -- A later sample is committed behind.
    have hzorder : z ∈ front ++ x :: back := by
      rw [← hfront, ← horder]
      exact (hmemOrder z).2 ⟨hz, href⟩
    rw [horder, hfront] at hpair
    rcases mem_append.1 hzorder with hz | hz
    · have hle := hbefore (z.t, z.v) (mem_map_of_mem hz)
      exact absurd hlt (not_lt.2 hle.le)
    rcases mem_cons.1 hz with rfl | hz
    · exact le_rfl
    · have hrel := (pairwise_cons.1 (pairwise_append.1 hpair).2.1).1 z hz
      omega
  · rintro ⟨hlast, hkind⟩
    obtain ⟨front, back, hfront⟩ := append_of_mem hxorder
    refine ⟨(x.t, x.v), mem_later_iff.2 ⟨front.map (fun y => (y.t, y.v)),
      back.map (fun y => (y.t, y.v)), ?_, hlast, ?_⟩, rfl, .refl x.v⟩
    · rw [samplesOf, ← horder, hfront, map_append, map_cons]
    intro p hp
    obtain ⟨y, hy, rfl⟩ := mem_map.1 hp
    have hyorder : y ∈ order := by
      rw [hfront]
      exact mem_append_left _ hy
    rw [hfront] at hpair
    have hrel := (pairwise_append.1 hpair).2.2 y hy x mem_cons_self
    by_contra hge
    have hne : x.t ≠ y.t := by
      intro heq
      rw [hinj x hxorder y hyorder heq] at hrel
      omega
    have := hkind y ((hmemOrder y).1 hyorder).1 ((hmemOrder y).1 hyorder).2
      (lt_of_le_of_ne (not_lt.1 hge) hne)
    omega

lemma Head.Started.wf {h h₁ : Head} (hstart : h.Started h₁) (hwf : h.WF) : h₁.WF := by
  rcases hstart with rfl | ⟨t, rfl⟩
  · exact hwf
  rw [initTime]
  split
  · exact hwf
  · exact hwf

lemma Head.Started.opts {h h₁ : Head} (hstart : h.Started h₁) : h₁.opts = h.opts := by
  rcases hstart with rfl | ⟨t, rfl⟩
  · rfl
  · rw [initTime]
    split <;> rfl

/-- Out-of-order ingestion is disabled. The samples that an appender has accepted, with increasing
times for each series, are all stored after a successful commit, in the order of the calls, if and
only if each of them was stored before, or is later than its series and followed by no sample of the
series that is of a kind committed before. -/
theorem commit_stores_iff (h : Head) (hwf : h.WF) (hooo : h.opts.outOfOrderTimeWindow = 0)
    (pick : Option ℕ) (calls : List AppendCall)
    (hinc : ∀ ref, ((h.appendRun pick calls).accepted.filter (·.ref = ref)).Pairwise (·.t < ·.t))
    (logged rollbackLogged : ℕ)
    (hok : ((h.appendRun pick calls).commit logged rollbackLogged).1 = true) :
    let r := h.appendRun pick calls
    (∀ ref, List.SublistForall₂ Stores (r.accepted.filter (·.ref = ref))
        ((r.commit logged rollbackLogged).2.mem ref).samples) ↔
      ∀ x ∈ r.accepted, (∃ p ∈ (r.head.mem x.ref).samples, Stores x p) ∨ Kept r x := by
  intro r
  rcases appendRun_since h pick calls with ⟨-, -, hacc, -⟩ | ⟨h₁, a, es, hstart, happ, hes, hacc, -⟩
  · -- Nothing was accepted.
    have hnil : r.accepted = [] := hacc
    simp only [hnil, filter_nil, not_mem_nil, false_implies, implies_true, iff_true]
    exact fun ref => .nil
  have happ : r.app = some a := happ
  have hacc : accepted es = r.accepted := hacc
  have hstartooo : (h₁.appender pick).1.oooTimeWindow = 0 :=
    (congrArg HeadOptions.outOfOrderTimeWindow hstart.opts).trans hooo
  have hzero : a.oooTimeWindow = 0 := hes.conditions.1.trans hstartooo
  have hrwf : r.head.WF := hes.wf (hstart.wf hwf)
  have hspec := hes.accepted_spec hstartooo
  rw [hacc] at hspec
  have hkinds : ∀ k, a.ofKind k = r.accepted.filter (·.v.kind = k) := by
    rw [← hacc]
    exact hes.ofKind_appender
  obtain ⟨wal, hcommit⟩ : ∃ wal, (r.commit logged rollbackLogged).2 =
      a.commitLogged { r.head with wal := wal } := by
    have hok : (r.commit logged rollbackLogged).1 = true := hok
    rw [AppendRun.commit, happ] at hok ⊢
    exact commit_eq hok
  -- What the series of an accepted sample has after the commit.
  have hafter : ∀ x ∈ r.accepted, ((r.commit logged rollbackLogged).2.mem x.ref).samples =
      (r.head.mem x.ref).samples ++
        later (r.head.mem x.ref).maxTime (samplesOf x.ref a.commitOrder) ∧
      ((r.commit logged rollbackLogged).2.mem x.ref).samples.Pairwise (·.1 < ·.1) := by
    intro x hx
    have hvalid : ∀ y ∈ samplesOf x.ref a.commitOrder, a.minValidTime ≤ y.1 := by
      intro y hy
      obtain ⟨z, hz, rfl⟩ := mem_map.1 hy
      have hz := (mem_filter.1 hz).1
      exact (hspec z ((mem_commitOrder_iff hkinds z).1 hz)).2
    obtain ⟨hwf', hsamples⟩ := commitValues_spec
      (hrwf x.ref (hspec x hx).1).2 hzero r.head.opts hvalid
    rw [hcommit, commitLogged_samples]
    exact ⟨hsamples, hwf'.sorted⟩
  have hstored : ∀ x ∈ r.accepted,
      (∃ p ∈ ((r.commit logged rollbackLogged).2.mem x.ref).samples, Stores x p) ↔
        (∃ p ∈ (r.head.mem x.ref).samples, Stores x p) ∨ Kept r x := by
    intro x hx
    rw [(hafter x hx).1, ← mem_later_commitOrder_iff hkinds hinc hx]
    simp only [mem_append, or_and_right, exists_or]
  constructor
  · intro hall x hx
    rw [← hstored x hx]
    refine (sublistForall₂_iff_forall_exists (hinc x.ref) (hafter x hx).2 ?_).1 (hall x.ref) x ?_
    · exact fun _ _ hs => hs.1
    · rw [mem_filter, decide_eq_true_eq]
      exact ⟨hx, rfl⟩
  · intro hall ref
    cases hfilter : r.accepted.filter (·.ref = ref) with
    | nil => exact .nil
    | cons x xs =>
      have hfirst : x ∈ r.accepted.filter (·.ref = ref) := by
        rw [hfilter]
        exact mem_cons_self
      have hx := (mem_filter.1 hfirst).1
      obtain rfl := of_decide_eq_true (mem_filter.1 hfirst).2
      rw [← hfilter, sublistForall₂_iff_forall_exists (hinc x.ref) (hafter x hx).2
        fun _ _ hs => hs.1]
      intro y hy
      obtain ⟨hy, hyref⟩ := mem_filter.1 hy
      rw [← of_decide_eq_true hyref]
      exact (hstored y hy).2 (hall y hy)

/-- A head for examples: with native histograms, and without out-of-order ingestion. -/
def Head.example : Head :=
  .empty
    { enableNativeHistograms := true
      enableExemplarStorage := false
      maxExemplars := 0
      outOfOrderTimeWindow := 0
      outOfOrderCapMax := 32
      validateExemplar := fun _ _ => none
      preCreation := fun _ => none
      rules := ⟨fun _ _ => 0, fun _ => []⟩ }
    7200000 minInt64 false

/-- A histogram is appended and then, to the same series, a later float. Both are accepted, but only
the float is stored. -/
theorem commit_drops_histogram :
    let lset : List Label := [⟨[97], [98]⟩]
    let hist := histogramWithSum 0
    let r := example.appendRun none
      [.appendHistogram 0 lset 1 (some hist) none, .append 0 lset 2 5]
    r.accepted = [⟨1, 1, .histogram hist⟩, ⟨1, 2, .float 5⟩] ∧
      (r.commit 9 9).1 = true ∧ ((r.commit 9 9).2.mem 1).samples = [(2, .float 5)] ∧
      ¬ ∀ ref, List.SublistForall₂ Stores (r.accepted.filter (·.ref = ref))
        ((r.commit 9 9).2.mem ref).samples := by
  intro lset hist r
  have hacc : r.accepted = [⟨1, 1, .histogram hist⟩, ⟨1, 2, .float 5⟩] := by decide +kernel
  have hsamples : ((r.commit 9 9).2.mem 1).samples = [(2, .float 5)] := by decide +kernel
  refine ⟨hacc, by decide +kernel, hsamples, fun hall => ?_⟩
  -- Two samples are not stored in one.
  have hone := hall 1
  rw [hacc, hsamples] at hone
  obtain ⟨stored, hmatch, hsub⟩ := sublistForall₂_iff.1 hone
  have htwo : stored.length = 2 := hmatch.length_eq.symm
  exact absurd (htwo ▸ hsub.length_le) (by decide)

/-- A float is appended and then, to the same series, a later histogram. Both are stored. -/
theorem commit_stores_float_then_histogram :
    let lset : List Label := [⟨[97], [98]⟩]
    let hist := histogramWithSum 0
    let r := Head.example.appendRun none
      [.append 0 lset 1 5, .appendHistogram 0 lset 2 (some hist) none]
    r.accepted = [⟨1, 1, .float 5⟩, ⟨1, 2, .histogram hist⟩] ∧
      ∀ ref, List.SublistForall₂ Stores (r.accepted.filter (·.ref = ref))
        ((r.commit 9 9).2.mem ref).samples := by
  intro lset hist
  -- The run is kept folded: the unifier would evaluate it.
  set r := Head.example.appendRun none
    [.append 0 lset 1 5, .appendHistogram 0 lset 2 (some hist) none] with hr
  have hacc : r.accepted = [⟨1, 1, .float 5⟩, ⟨1, 2, .histogram hist⟩] := by decide +kernel
  have hwf : Head.example.WF := by
    intro ref href
    cases href
  have hinc : ∀ ref, (r.accepted.filter (·.ref = ref)).Pairwise (·.t < ·.t) := by
    intro ref
    refine List.Pairwise.sublist filter_sublist ?_
    rw [hacc]
    decide
  have hok : (r.commit 9 9).1 = true := by decide +kernel
  have hlast : ∀ x ∈ r.accepted, (r.head.mem x.ref).maxTime < x.t := by
    rw [hacc]
    decide +kernel
  have hkind : ∀ x ∈ r.accepted, ∀ y ∈ r.accepted, x.t < y.t → x.v.kind ≤ y.v.kind := by
    rw [hacc]
    decide
  have hiff := commit_stores_iff Head.example hwf rfl none
    [.append 0 lset 1 5, .appendHistogram 0 lset 2 (some hist) none] hinc 9 9 hok
  rw [← hr] at hiff
  have hkept : ∀ x ∈ r.accepted, Kept r x :=
    fun x hx => ⟨hlast x hx, fun y hy _ hlt => hkind x hx y hy hlt⟩
  refine ⟨hacc, ?_⟩
  apply hiff.2
  intro x hx
  right
  exact hkept x hx

end Prometheus.Tsdb
