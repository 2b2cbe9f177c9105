import Prometheus.Tsdb.Commit

/-!
# The order of the log

A commit adds the samples of an appender to their series buffer by buffer. The log has them in
another order: each buffer of histograms is written as two records, first the histograms with
exponential buckets and then those with custom buckets. Since a series takes only samples that are
later than all it has, this makes a difference. A histogram with custom buckets is lost, or one with
exponential buckets comes in, exactly if one is overtaken by the other (`later_partition_iff`).
-/

namespace Prometheus.Tsdb

open GoInt Record List

section Later

variable {V : Type}

variable (last : ℤ)

/-- The latest time of some samples and of `last`. -/
def lastTime (xs : List (ℤ × V)) : ℤ :=
  xs.foldl (fun m x => max m x.1) last

lemma lastTime_cons (x : ℤ × V) (xs : List (ℤ × V)) :
    lastTime last (x :: xs) = lastTime (max last x.1) xs :=
  rfl

lemma lastTime_append (xs ys : List (ℤ × V)) :
    lastTime last (xs ++ ys) = lastTime (lastTime last xs) ys :=
  foldl_append

lemma lastTime_perm {xs ys : List (ℤ × V)} (h : xs.Perm ys) (last : ℤ) :
    lastTime last xs = lastTime last ys := by
  refine h.foldl_eq' ?_ last
  intro x _ y _ m
  exact max_right_comm m x.1 y.1

variable {xs : List (ℤ × V)} {last : ℤ} {x : ℤ × V}

lemma lastTime_le_iff {last m : ℤ} : lastTime last xs ≤ m ↔ last ≤ m ∧ ∀ x ∈ xs, x.1 ≤ m := by
  induction xs generalizing last with
  | nil => simp [lastTime]
  | cons x xs ih =>
    rw [lastTime_cons, ih, max_le_iff, forall_mem_cons, and_assoc]

lemma le_lastTime (last : ℤ) (xs : List (ℤ × V)) : last ≤ lastTime last xs :=
  (lastTime_le_iff.1 le_rfl).1

lemma later_append (last : ℤ) (xs ys : List (ℤ × V)) :
    later last (xs ++ ys) = later last xs ++ later (lastTime last xs) ys := by
  induction xs generalizing last with
  | nil => rfl
  | cons x xs ih =>
    rw [cons_append, later, later, lastTime_cons]
    split
    case isTrue hlt => rw [ih, max_eq_right hlt.le, cons_append]
    case isFalse hge => rw [ih, max_eq_left (not_lt.1 hge)]

lemma lt_of_mem_later (hx : x ∈ later last xs) : last < x.1 := by
  obtain ⟨-, -, -, hlt, -⟩ := mem_later_iff.1 hx
  exact hlt

lemma later_subset (last : ℤ) (xs : List (ℤ × V)) : later last xs ⊆ xs := by
  intro x hx
  obtain ⟨before, after, rfl, -, -⟩ := mem_later_iff.1 hx
  simp

lemma later_eq_nil_iff : later last xs = [] ↔ ∀ x ∈ xs, x.1 ≤ last := by
  induction xs with
  | nil => simp [later]
  | cons x xs ih =>
    rw [later, forall_mem_cons, ← ih]
    split
    case isTrue hlt => simp [not_le.2 hlt]
    case isFalse hge => simp [not_lt.1 hge]

/-- Samples up to a time and those after it can be told apart. -/
lemma append_later_inj {m : ℤ} {as bs xs ys : List (ℤ × V)} (has : ∀ x ∈ as, x.1 ≤ m)
    (hbs : ∀ x ∈ bs, x.1 ≤ m) :
    as ++ later m xs = bs ++ later m ys ↔ as = bs ∧ later m xs = later m ys := by
  have hsplit : ∀ cs zs : List (ℤ × V), (∀ x ∈ cs, x.1 ≤ m) →
      (cs ++ later m zs).filter (·.1 ≤ m) = cs := by
    intro cs zs hcs
    have hkeep : cs.filter (·.1 ≤ m) = cs := by
      rw [filter_eq_self]
      exact fun x hx => decide_eq_true (hcs x hx)
    have hdrop : (later m zs).filter (·.1 ≤ m) = [] := by
      rw [filter_eq_nil_iff]
      intro x hx
      simpa using lt_of_mem_later hx
    rw [filter_append, hkeep, hdrop, append_nil]
  constructor
  · intro heq
    have hparts := congrArg (filter (·.1 ≤ m)) heq
    rw [hsplit as xs has, hsplit bs ys hbs] at hparts
    subst hparts
    exact ⟨rfl, append_cancel_left heq⟩
  · rintro ⟨rfl, heq⟩
    rw [heq]

/-- Samples that are not late enough do not matter. -/
lemma later_filter {q : ℤ × V → Bool}
    (h : ∀ x ∈ xs, q x = false → x.1 ≤ last) : later last (xs.filter q) = later last xs := by
  induction xs generalizing last with
  | nil => rfl
  | cons x xs ih =>
    obtain ⟨hx, hxs⟩ := forall_mem_cons.1 h
    cases hq : q x with
    | true =>
      rw [filter_cons_of_pos hq, later, later]
      split
      case isTrue hlt => rw [ih fun y hy hqy => (hxs y hy hqy).trans hlt.le]
      case isFalse hge => rw [ih hxs]
    | false =>
      rw [filter_cons_of_neg (by simp [hq]), later, if_neg (not_lt.2 (hx hq)), ih hxs]

/-! ### Two classes of samples, one before the other -/

/-- A sample of the class `p` is followed by one outside of it, and both are late enough to be
added, each when its turn comes: the first one in the given order, and the second one when the
samples outside of `p` come first. -/
def Overtaken (p : V → Bool) (last : ℤ) (xs : List (ℤ × V)) : Prop :=
  ∃ before c after e, xs = before ++ c :: after ∧ e ∈ after ∧ p c.2 = true ∧ p e.2 = false ∧
    (last < c.1 ∧ ∀ y ∈ before, y.1 < c.1) ∧
    (last < e.1 ∧ ∀ y ∈ before, p y.2 = false → y.1 < e.1)

variable {p : V → Bool}

lemma not_overtaken_of_pairwise
    (h : xs.Pairwise fun c e => p c.2 = true → p e.2 = true) : ¬ Overtaken p last xs := by
  rintro ⟨before, c, after, e, rfl, he, hpc, hpe, -⟩
  have hce := (pairwise_cons.1 (pairwise_append.1 h).2.1).1 e he hpc
  rw [hpe] at hce
  cases hce

lemma overtaken_cons_outside (hx : p x.2 = false) :
    Overtaken p last (x :: xs) ↔ Overtaken p (max last x.1) xs := by
  constructor
  · rintro ⟨before, c, after, e, heq, he, hpc, hpe, ⟨hc, hbc⟩, he', hbe⟩
    cases before with
    | nil =>
      cases heq
      rw [hx] at hpc
      cases hpc
    | cons y before =>
      obtain ⟨rfl, rfl⟩ := cons.inj heq
      obtain ⟨hxc, hbc⟩ := forall_mem_cons.1 hbc
      obtain ⟨hxe, hbe⟩ := forall_mem_cons.1 hbe
      exact ⟨before, c, after, e, rfl, he, hpc, hpe, ⟨max_lt hc hxc, hbc⟩, max_lt he' (hxe hx), hbe⟩
  · rintro ⟨before, c, after, e, rfl, he, hpc, hpe, ⟨hc, hbc⟩, he', hbe⟩
    obtain ⟨hc, hxc⟩ := max_lt_iff.1 hc
    obtain ⟨he', hxe⟩ := max_lt_iff.1 he'
    refine ⟨x :: before, c, after, e, rfl, he, hpc, hpe, ⟨hc, ?_⟩, he', ?_⟩
    · exact forall_mem_cons.2 ⟨hxc, hbc⟩
    · exact forall_mem_cons.2 ⟨fun _ => hxe, hbe⟩

lemma overtaken_cons_early (hpx : p x.2 = true)
    (hx : x.1 ≤ last) : Overtaken p last (x :: xs) ↔ Overtaken p last xs := by
  constructor
  · rintro ⟨before, c, after, e, heq, he, hpc, hpe, ⟨hc, hbc⟩, he', hbe⟩
    cases before with
    | nil =>
      cases heq
      exact absurd hc (not_lt.2 hx)
    | cons y before =>
      obtain ⟨rfl, rfl⟩ := cons.inj heq
      exact ⟨before, c, after, e, rfl, he, hpc, hpe, ⟨hc, (forall_mem_cons.1 hbc).2⟩, he',
        (forall_mem_cons.1 hbe).2⟩
  · rintro ⟨before, c, after, e, rfl, he, hpc, hpe, ⟨hc, hbc⟩, he', hbe⟩
    refine ⟨x :: before, c, after, e, rfl, he, hpc, hpe, ⟨hc, ?_⟩, he', ?_⟩
    · exact forall_mem_cons.2 ⟨lt_of_le_of_lt hx hc, hbc⟩
    refine forall_mem_cons.2 ⟨fun hpx' => ?_, hbe⟩
    rw [hpx] at hpx'
    cases hpx'

lemma overtaken_cons_late (hpx : p x.2 = true) (hx : last < x.1) :
    Overtaken p last (x :: xs) ↔ ∃ e ∈ xs, p e.2 = false ∧ last < e.1 := by
  constructor
  · rintro ⟨before, c, after, e, heq, he, -, hpe, -, he', -⟩
    refine ⟨e, ?_, hpe, he'⟩
    cases before with
    | nil =>
      cases heq
      exact he
    | cons y before =>
      obtain ⟨-, rfl⟩ := cons.inj heq
      simp [he]
  · rintro ⟨e, he, hpe, he'⟩
    exact ⟨[], x, xs, e, rfl, he, hpx, hpe, ⟨hx, by simp⟩, he', by simp⟩

variable (p last xs)

/-- The same samples are added if those outside of `p` come first, exactly if none is overtaken. -/
theorem later_partition_iff :
    later last (xs.filter (fun x => !p x.2) ++ xs.filter (fun x => p x.2)) = later last xs ↔
      ¬ Overtaken p last xs := by
  induction xs generalizing last with
  | nil =>
    simp only [filter_nil, append_nil, true_iff]
    rintro ⟨before, c, after, e, heq, -⟩
    simp at heq
  | cons x xs ih =>
    cases hpx : p x.2 with
    | false =>
      -- The sample is the first one in both orders.
      rw [filter_cons_of_pos (by simp [hpx]), filter_cons_of_neg (by simp [hpx]),
        cons_append, later, later, overtaken_cons_outside hpx, ← ih]
      split
      case isTrue hlt => rw [max_eq_right hlt.le, cons.injEq, and_iff_right rfl]
      case isFalse hge => rw [max_eq_left (not_lt.1 hge)]
    | true =>
      rw [filter_cons_of_neg (by simp [hpx]), filter_cons_of_pos (by simp [hpx]),
        later_append, later, later]
      by_cases hlt : last < x.1
      · rw [if_pos hlt, overtaken_cons_late hpx hlt]
        by_cases hex : ∃ e ∈ xs, p e.2 = false ∧ last < e.1
        · -- Samples outside of `p` are added before this one.
          simp only [hex, not_true_eq_false, iff_false]
          obtain ⟨e, he, hpe, hlast⟩ := hex
          intro heq
          cases hfirst : later last (xs.filter fun x => !p x.2) with
          | nil =>
            have hle := later_eq_nil_iff.1 hfirst e (mem_filter.2 ⟨he, by simp [hpe]⟩)
            exact absurd hlast (not_lt.2 hle)
          | cons y ys =>
            have hy := (mem_filter.1 (later_subset last _ (hfirst ▸ mem_cons_self))).2
            rw [hfirst, cons_append] at heq
            rw [(cons.inj heq).1, hpx] at hy
            cases hy
        · -- No sample outside of `p` is late enough.
          simp only [hex, not_false_eq_true, iff_true]
          have hle : ∀ e ∈ xs, p e.2 = false → e.1 ≤ last :=
            fun e he hpe => not_lt.1 fun hlast => hex ⟨e, he, hpe, hlast⟩
          have hle' : ∀ e ∈ xs.filter (fun x => !p x.2), e.1 ≤ last := by
            intro e he
            obtain ⟨he, hpe⟩ := mem_filter.1 he
            exact hle e he (by simpa using hpe)
          have hlast : lastTime last (xs.filter fun x => !p x.2) = last :=
            le_antisymm (lastTime_le_iff.2 ⟨le_rfl, hle'⟩) (le_lastTime _ _)
          rw [later_eq_nil_iff.2 hle', hlast, if_pos hlt, nil_append,
            later_filter fun y hy hpy => (hle y hy hpy).trans hlt.le]
      · rw [if_neg hlt, overtaken_cons_early hpx (not_lt.1 hlt), ← ih, later_append,
          if_neg (not_lt.2 ((not_lt.1 hlt).trans (le_lastTime _ _)))]

end Later

/-! ### What an appender logs -/

def SampleValue.usesCustomBuckets : SampleValue → Bool
  | .float _ => false
  | .histogram h => h.usesCustomBuckets
  | .floatHistogram fh => fh.usesCustomBuckets

/-- The samples of a record. -/
def WalRecord.values : WalRecord → List (RefValue SampleValue)
  | samples xs => xs.map (·.map .float)
  | histogramSamples xs => xs.map (·.map .histogram)
  | customBucketsHistogramSamples xs => xs.map (·.map .histogram)
  | floatHistogramSamples xs => xs.map (·.map .floatHistogram)
  | customBucketsFloatHistogramSamples xs => xs.map (·.map .floatHistogram)
  | _ => []

namespace HeadAppender

lemma flatMap_recordOf {α β : Type} (f : WalRecord → List β) (record : List α → WalRecord)
    (hnil : f (record []) = []) (xs : List α) : (recordOf record xs).flatMap f = f (record xs) := by
  rw [recordOf]
  split
  case isTrue h => rw [h, hnil, flatMap_nil]
  case isFalse => exact flatMap_singleton ..

/-- All samples of an appender in the order in which they are logged. -/
def logOrder (a : HeadAppender) : List (RefValue SampleValue) :=
  a.logRecords.flatMap WalRecord.values

variable (xs : List (RefValue SampleValue))

/-- A buffer as it is logged: samples with custom buckets come last. -/
def partitioned : List (RefValue SampleValue) :=
  xs.filter (fun x => !x.v.usesCustomBuckets) ++ xs.filter (fun x => x.v.usesCustomBuckets)

lemma map_customBuckets (value : Histogram → SampleValue)
    (hvalue : ∀ h, (value h).usesCustomBuckets = h.usesCustomBuckets)
    (xs : List (RefValue Histogram)) :
    (customBuckets false xs).map (·.map value) ++ (customBuckets true xs).map (·.map value) =
      partitioned (xs.map (·.map value)) := by
  rw [partitioned, filter_map, filter_map, customBuckets, customBuckets]
  congr 3
  · ext x
    simp [RefValue.map, hvalue]
  · ext x
    simp [RefValue.map, hvalue]

variable (a : HeadAppender) (ref : ℕ)

lemma logOrder_eq :
    a.logOrder = a.ofKind 0 ++ partitioned (a.ofKind 1) ++ partitioned (a.ofKind 2) := by
  have hhist := map_customBuckets .histogram (fun _ => rfl) a.histograms
  have hfloat := map_customBuckets .floatHistogram (fun _ => rfl) a.floatHistograms
  rw [ofKind, ofKind, ofKind, ← hhist, ← hfloat, logOrder, logRecords]
  simp only [flatMap_append]
  repeat rw [flatMap_recordOf _ _ rfl]
  simp [WalRecord.values]

lemma samplesOf_append (xs ys : List (RefValue SampleValue)) :
    samplesOf ref (xs ++ ys) = samplesOf ref xs ++ samplesOf ref ys := by
  rw [samplesOf, filter_append, map_append]
  rfl

lemma samplesOf_filter (q : SampleValue → Bool) (xs : List (RefValue SampleValue)) :
    samplesOf ref (xs.filter fun x => q x.v) = (samplesOf ref xs).filter fun x => q x.2 := by
  rw [samplesOf, samplesOf, filter_map, filter_filter, filter_filter]
  congr 2
  ext x
  exact Bool.and_comm ..

lemma perm_partitioned : (partitioned xs).Perm xs := by
  refine perm_append_comm.trans ?_
  exact filter_append_perm (fun x => x.v.usesCustomBuckets) xs

lemma perm_logOrder : a.logOrder.Perm a.commitOrder := by
  rw [logOrder_eq]
  exact ((perm_partitioned _).append_left _).append (perm_partitioned _)

lemma lastTime_samplesOf_perm {xs ys : List (RefValue SampleValue)} (h : xs.Perm ys) (ref : ℕ)
    (last : ℤ) : lastTime last (samplesOf ref xs) = lastTime last (samplesOf ref ys) :=
  lastTime_perm ((h.filter _).map _) last

lemma later_partitioned_iff (last : ℤ) (xs : List (RefValue SampleValue)) :
    later last (samplesOf ref (partitioned xs)) = later last (samplesOf ref xs) ↔
      ¬ Overtaken SampleValue.usesCustomBuckets last (samplesOf ref xs) := by
  rw [← later_partition_iff, partitioned, samplesOf_append,
    samplesOf_filter ref fun v => !v.usesCustomBuckets, samplesOf_filter]

lemma le_lastTime_of_mem_later {V : Type} {last : ℤ} {xs : List (ℤ × V)} {x : ℤ × V}
    (hx : x ∈ later last xs) : x.1 ≤ lastTime last xs :=
  (lastTime_le_iff.1 le_rfl).2 x (later_subset last xs hx)

/-- The two buffers of histograms decide whether the log and the commit add the same samples. -/
lemma later_logOrder_iff_buffers (last : ℤ) :
    later last (samplesOf ref a.logOrder) = later last (samplesOf ref a.commitOrder) ↔
      ¬ Overtaken SampleValue.usesCustomBuckets (lastTime last (samplesOf ref (a.ofKind 0)))
          (samplesOf ref (a.ofKind 1)) ∧
        ¬ Overtaken SampleValue.usesCustomBuckets
          (lastTime last (samplesOf ref (a.ofKind 0 ++ a.ofKind 1)))
            (samplesOf ref (a.ofKind 2)) := by
  have hcommit : a.commitOrder = a.ofKind 0 ++ a.ofKind 1 ++ a.ofKind 2 := rfl
  have hlast : lastTime last (samplesOf ref (a.ofKind 0 ++ partitioned (a.ofKind 1))) =
      lastTime last (samplesOf ref (a.ofKind 0 ++ a.ofKind 1)) :=
    lastTime_samplesOf_perm ((perm_partitioned _).append_left _) ref last
  rw [logOrder_eq, hcommit, ← later_partitioned_iff, ← later_partitioned_iff, samplesOf_append ref _
    (partitioned (a.ofKind 2)), samplesOf_append ref _ (a.ofKind 2), later_append,
      later_append, hlast]
  -- The times tell the first two buffers from the third, and floats are the same in both orders.
  rw [append_later_inj]
  · rw [samplesOf_append, samplesOf_append, later_append, later_append, append_right_inj]
  · intro x hx
    rw [← hlast]
    exact le_lastTime_of_mem_later hx
  · intro x hx
    exact le_lastTime_of_mem_later hx

/-- The log has the samples of an appender in an order that adds the same ones to a series as the
commit does, exactly if no histogram with custom buckets is overtaken by one of its kind. -/
lemma later_logOrder_iff {a : HeadAppender} {xs : List (RefValue SampleValue)}
    (hkinds : ∀ k, a.ofKind k = xs.filter (·.v.kind = k)) (ref : ℕ) (last : ℤ) :
    later last (samplesOf ref a.logOrder) = later last (samplesOf ref a.commitOrder) ↔
      ∀ k, ¬ Overtaken SampleValue.usesCustomBuckets
        (lastTime last (samplesOf ref (xs.filter (·.v.kind < k))))
        (samplesOf ref (xs.filter (·.v.kind = k))) := by
  have hone : xs.filter (·.v.kind < 1) = a.ofKind 0 := by
    rw [hkinds]
    exact filter_congr fun x _ => by simp
  have htwo : (xs.filter (·.v.kind < 2)).Perm (a.ofKind 0 ++ a.ofKind 1) := by
    rw [← hone, hkinds]
    have hsplit := filter_append_perm (fun x => decide (x.v.kind < 1)) (xs.filter (·.v.kind < 2))
    refine hsplit.symm.trans (.of_eq ?_)
    rw [filter_filter, filter_filter]
    congr 1
    · exact filter_congr fun x _ => by rw [← Bool.decide_and, decide_eq_decide]; omega
    refine filter_congr fun x _ => ?_
    rw [← decide_not, ← Bool.decide_and, decide_eq_decide]
    omega
  have hempty : ∀ k, k ≠ 1 → k ≠ 2 → (samplesOf ref (xs.filter (·.v.kind = k))).Pairwise
      fun c e => c.2.usesCustomBuckets = true → e.2.usesCustomBuckets = true := by
    intro k hk₁ hk₂
    refine pairwise_of_forall_mem_list fun c hc e _ hcustom => ?_
    obtain ⟨x, hx, rfl⟩ := mem_map.1 hc
    cases hv : x.v <;> simp_all [SampleValue.kind, SampleValue.usesCustomBuckets]
  rw [later_logOrder_iff_buffers, ← lastTime_samplesOf_perm htwo, ← hone, hkinds 1, hkinds 2]
  constructor
  · rintro ⟨hfirst, hsecond⟩ k
    by_cases hk₁ : k = 1
    · rw [hk₁]
      exact hfirst
    by_cases hk₂ : k = 2
    · rw [hk₂]
      exact hsecond
    exact not_overtaken_of_pairwise (hempty k hk₁ hk₂)
  · intro h
    exact ⟨h 1, h 2⟩

end HeadAppender

end Prometheus.Tsdb
