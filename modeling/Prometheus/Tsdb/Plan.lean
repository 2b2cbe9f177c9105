import Prometheus.Lib.Float64
import Prometheus.Lib.Interval
import Prometheus.Tsdb.Block

/-!
# Planning a compaction

`LeveledCompactor.plan` of `tsdb/compact.go`: which blocks are to be compacted into one.

Overlapping blocks come first. The code looks for them in one pass, with the largest end so far; it
finds the first group of overlapping blocks (`selectOverlappingDirs_spec`). If there are none, it
looks for blocks that together fill a window of one of the configured ranges (`splitByRange`).

Times are `int64`s. The start of a window is computed with wrapping arithmetic, and for times close
to the least `int64` it is not the start of a window at all.
-/

namespace Prometheus.Tsdb

open GoInt Interval List

structure DirMeta where
  dir : String
  blockMeta : BlockMeta
deriving DecidableEq

def DirMeta.minTime (d : DirMeta) : ℤ := d.blockMeta.minTime

def DirMeta.maxTime (d : DirMeta) : ℤ := d.blockMeta.maxTime

structure LeveledCompactor where
  ranges : List ℤ
  enableOverlappingCompaction : Bool

/-! ### Overlapping blocks -/

/-- The loop of `selectOverlappingDirs`, where `prev` is the block before the ones that are left. -/
def overlapLoop : ℤ → DirMeta → List DirMeta → List DirMeta → List DirMeta
  | _, _, overlapping, [] => overlapping
  | globalMaxt, prev, overlapping, d :: ds =>
    if d.minTime < globalMaxt then
      -- When it is the first overlap, need to add the last one as well.
      let overlapping := if overlapping = [] then [prev] else overlapping
      overlapLoop (max globalMaxt d.maxTime) d (overlapping ++ [d]) ds
    else if overlapping ≠ [] then overlapping
    else overlapLoop (max globalMaxt d.maxTime) d overlapping ds

variable (c : LeveledCompactor)

/-- `selectOverlappingDirs`, of blocks sorted by their start. -/
def LeveledCompactor.selectOverlappingDirs : List DirMeta → List String
  | [] => []
  | d :: ds =>
    if ¬c.enableOverlappingCompaction then []
    else (overlapLoop d.maxTime d [] ds).map DirMeta.dir

/-! ### Blocks in the same window -/

/-- The start of the aligned time range of size `tr` closest to `t`. -/
def windowStart (tr t : ℤ) : ℤ :=
  if t ≥ 0 then wrap (tr * wrap (t.tdiv tr))
  else wrap (tr * wrap ((wrap (wrap (t - tr) + 1)).tdiv tr))

/-- The end of that range. -/
def windowEnd (tr t : ℤ) : ℤ :=
  wrap (windowStart tr t + tr)

/-- The loop of `splitByRange`. -/
def splitLoop (tr : ℤ) : ℕ → List DirMeta → List (List DirMeta)
  | 0, _ => []
  | _, [] => []
  | fuel + 1, d :: ds =>
    let t1 := windowEnd tr d.minTime
    -- Skip blocks that don't fall into the range.
    if d.maxTime > t1 then splitLoop tr fuel ds
    else
      -- Add all dirs to the current group that are within the range.
      (d :: ds).takeWhile (fun d => ¬d.maxTime > t1) ::
        splitLoop tr fuel ((d :: ds).dropWhile fun d => ¬d.maxTime > t1)

/-- `splitByRange`. Each turn takes a block off the list. A range of zero is divided by. -/
def splitByRange (ds : List DirMeta) (tr : ℤ) : Option (List (List DirMeta)) :=
  if tr = 0 ∧ ds ≠ [] then none else some (splitLoop tr ds.length ds)

/-- If the group `p` of blocks in one window of `iv` is selected. -/
def selected (highTime iv : ℤ) (p : List DirMeta) : Bool :=
  p.all (fun dm => !dm.blockMeta.failed) && match p.head?, p.getLast? with
    | some first, some last =>
      (wrap (last.maxTime - first.minTime) = iv || last.maxTime ≤ highTime) && 1 < p.length
    | _, _ => false

/-- The loop of `selectDirs` over the ranges. -/
def selectLoop (ds : List DirMeta) (highTime : ℤ) : List ℤ → Option (List DirMeta)
  | [] => some []
  | iv :: ivs => do
    let parts ← splitByRange ds iv
    match parts.find? (selected highTime iv) with
    | some p => some p
    | none => selectLoop ds highTime ivs

def LeveledCompactor.selectDirs (ds : List DirMeta) : Option (List DirMeta) :=
  match c.ranges, ds.getLast? with
  | _ :: iv :: ivs, some last => selectLoop ds last.minTime (iv :: ivs)
  | _, _ => some []

/-! ### Blocks with many tombstones -/

/-- If more than 5% of the series have tombstones, or so the code estimates. -/
def manyTombstones (stats : BlockStats) : Bool :=
  Float64.lt 0x3FA999999999999A
    (Float64.div (Float64.ofNat stats.numTombstones.toNat)
      (Float64.ofNat (stats.numSeries + 1).toNat))

/-- The last loop of `plan`, from the newest block on. -/
def tombstonesLoop (range : ℤ) : List DirMeta → List String
  | [] => []
  | d :: ds =>
    let stats := d.blockMeta.stats
    if wrap (d.maxTime - d.minTime) < range then
      -- If the block is entirely deleted, then we don't care about the block being big enough.
      if stats.numTombstones > 0 ∧ stats.numTombstones ≥ stats.numSeries then [d.dir] else []
    else if manyTombstones stats then [d.dir]
    else tombstonesLoop range ds

/-! ### The plan -/

/-- `plan` of blocks that have been sorted. It needs a block, and a range if there are two. -/
def LeveledCompactor.planSorted (dms : List DirMeta) : Option (List String) :=
  let res := c.selectOverlappingDirs dms
  if res ≠ [] then some res
  else if dms = [] then none
  else do
    -- We do not include a recently created block with max(minTime).
    let dms := dms.dropLast
    let ds ← c.selectDirs dms
    if ds ≠ [] then some (ds.map DirMeta.dir)
    else if dms = [] then some []
    else
      let range ← c.ranges[c.ranges.length / 2]?
      some (tombstonesLoop range dms.reverse)

/-- What `slices.SortFunc` does with blocks: blocks with the same start may come in any order. -/
structure SortsByMinTime (sort : List DirMeta → List DirMeta) : Prop where
  perm : ∀ dms, (sort dms).Perm dms
  sorted : ∀ dms, (sort dms).Pairwise fun a b => a.minTime ≤ b.minTime

def LeveledCompactor.plan (sort : List DirMeta → List DirMeta)
    (dms : List DirMeta) : Option (List String) :=
  c.planSorted (sort dms)

open DirMeta LeveledCompactor

/-! ### The first group of overlapping blocks -/

section Overlapping

variable {globalMaxt : ℤ} {prev : DirMeta} {g ds : List DirMeta}

/-- Once there is a group, it grows as long as the next block starts before the end of the group.
The member that ends last overlaps that block. -/
lemma overlapLoop_group (hne : g ≠ []) (hg : ChainConnected minTime maxTime g)
    (hlast : ∃ y ∈ g, y.maxTime = globalMaxt) (hend : ∀ y ∈ g, y.maxTime ≤ globalMaxt)
    (hstart : ∀ y ∈ g, ∀ x ∈ ds, y.minTime ≤ x.minTime) (hds : ∀ x ∈ ds, x.minTime < x.maxTime)
    (hsorted : ds.Pairwise fun a b => a.minTime ≤ b.minTime) :
    ∃ g' post, ds = g' ++ post ∧ overlapLoop globalMaxt prev g ds = g ++ g' ∧
      ChainConnected minTime maxTime (g ++ g') ∧
      ∀ a ∈ g ++ g', ∀ b ∈ post, ¬Overlap minTime maxTime a b := by
  induction ds generalizing globalMaxt prev g with
  | nil => exact ⟨[], [], rfl, by simp [overlapLoop], by simpa using hg, by simp⟩
  | cons d ds ih =>
    obtain ⟨hd, hrest⟩ := pairwise_cons.1 hsorted
    by_cases hlt : d.minTime < globalMaxt
    · obtain ⟨y, hy, hymax⟩ := hlast
      have hoverlap : Overlap minTime maxTime y d :=
        ⟨(hstart y hy d mem_cons_self).trans_lt (hds d mem_cons_self), hymax ▸ hlt⟩
      obtain ⟨g', post, hsplit, hloop, hconn, hpost⟩ :=
        @ih (max globalMaxt d.maxTime) d (g ++ [d]) (by simp) (hg.concat hy hoverlap)
        (by
          rcases le_total globalMaxt d.maxTime with hle | hle
          · exact ⟨d, by simp, (max_eq_right hle).symm⟩
          · exact ⟨y, by simp [hy], hymax.trans (max_eq_left hle).symm⟩)
        (by
          intro z hz
          rcases mem_append.1 hz with hz | hz
          · exact (hend z hz).trans (le_max_left _ _)
          · exact mem_singleton.1 hz ▸ le_max_right _ _)
        (by
          intro z hz x hx
          rcases mem_append.1 hz with hz | hz
          · exact hstart z hz x (mem_cons_of_mem _ hx)
          · exact mem_singleton.1 hz ▸ hd x hx)
        (fun x hx => hds x (mem_cons_of_mem _ hx)) hrest
      refine ⟨d :: g', post, by rw [hsplit]; rfl, ?_, by simpa using hconn, by simpa using hpost⟩
      rw [overlapLoop, if_pos hlt, if_neg hne, hloop]
      simp
    · refine ⟨[], d :: ds, rfl, ?_, by simpa using hg, ?_⟩
      · rw [overlapLoop, if_neg hlt, if_pos hne, append_nil]
      · intro a ha b hb
        rw [append_nil] at ha
        have hdb : d.minTime ≤ b.minTime := by
          rcases mem_cons.1 hb with rfl | hb
          · exact le_refl _
          · exact hd b hb
        exact not_overlap_of_le (((hend a ha).trans (not_lt.1 hlt)).trans hdb)

/-- Up to the first overlap, the last block is the one that ends last. -/
lemma overlapLoop_nil (hds : ∀ x ∈ prev :: ds, x.minTime < x.maxTime)
    (hsorted : (prev :: ds).Pairwise fun a b => a.minTime ≤ b.minTime) :
    overlapLoop prev.maxTime prev [] ds = [] ∧
        (prev :: ds).Pairwise (fun a b => ¬Overlap minTime maxTime a b) ∨
      ∃ pre post, prev :: ds = pre ++ overlapLoop prev.maxTime prev [] ds ++ post ∧
        IsFirstGroup minTime maxTime pre (overlapLoop prev.maxTime prev [] ds) post := by
  induction ds generalizing prev with
  | nil => exact .inl ⟨rfl, pairwise_singleton _ _⟩
  | cons d ds ih =>
    obtain ⟨hprev, hrest⟩ := pairwise_cons.1 hsorted
    obtain ⟨hprevValid, hrestValid⟩ := forall_mem_cons.1 hds
    have hdValid := hrestValid d mem_cons_self
    by_cases hlt : d.minTime < prev.maxTime
    · -- The first overlap: `prev` and `d` begin a group.
      have hoverlap : Overlap minTime maxTime prev d :=
        ⟨(hprev d mem_cons_self).trans_lt hdValid, hlt⟩
      obtain ⟨g', post, hsplit, hloop, hconn, hpost⟩ :=
        @overlapLoop_group (max prev.maxTime d.maxTime) d [prev, d] ds (by simp)
        ((chainConnected_singleton prev).concat mem_cons_self hoverlap)
        (by
          rcases le_total prev.maxTime d.maxTime with hle | hle
          · exact ⟨d, by simp, (max_eq_right hle).symm⟩
          · exact ⟨prev, by simp, (max_eq_left hle).symm⟩)
        (by simp)
        (by
          intro y hy x hx
          rcases mem_cons.1 hy with rfl | hy
          · exact hprev x (mem_cons_of_mem _ hx)
          · exact mem_singleton.1 hy ▸ (pairwise_cons.1 hrest).1 x hx)
        (fun x hx => hrestValid x (mem_cons_of_mem _ hx)) hrest.of_cons
      have heq : overlapLoop prev.maxTime prev [] (d :: ds) = [prev, d] ++ g' := by
        rw [overlapLoop, if_pos hlt, if_pos rfl]
        exact hloop
      refine .inr ⟨[], post, ?_, ?_⟩
      · rw [heq, hsplit]
        rfl
      rw [heq]
      refine ⟨List.Pairwise.nil, by simp, hconn, fun hall => ?_, hpost⟩
      exact (pairwise_cons.1 hall).1 d (by simp) hoverlap
    · have hle := not_lt.1 hlt
      have hapart : ∀ x ∈ d :: ds, ¬Overlap minTime maxTime prev x := by
        intro x hx
        rcases mem_cons.1 hx with rfl | hx
        · exact not_overlap_of_le hle
        · exact not_overlap_of_le (hle.trans ((pairwise_cons.1 hrest).1 x hx))
      have heq : overlapLoop prev.maxTime prev [] (d :: ds) = overlapLoop d.maxTime d [] ds := by
        rw [overlapLoop, if_neg hlt, if_neg (by simp), max_eq_right (hle.trans hdValid.le)]
      rw [heq]
      rcases ih hrestValid hrest with ⟨hnil, hall⟩ | ⟨pre, post, hsplit, hfirst⟩
      · exact .inl ⟨hnil, pairwise_cons.2 ⟨hapart, hall⟩⟩
      refine .inr ⟨prev :: pre, post, by rw [hsplit]; rfl, ?_, ?_, hfirst.connected, hfirst.overlap,
        hfirst.maximal⟩
      · refine pairwise_cons.2 ⟨fun x hx => hapart x ?_, hfirst.alone⟩
        rw [hsplit]
        simp [hx]
      intro a ha b hb
      rcases mem_cons.1 ha with rfl | ha
      · refine hapart b ?_
        rw [hsplit]
        simpa using .inr (mem_append.1 hb)
      · exact hfirst.apart a ha b hb

/-- The pass finds the first group of overlapping blocks, or nothing if no two blocks overlap. -/
theorem selectOverlappingDirs_spec {c : LeveledCompactor}
    (hc : c.enableOverlappingCompaction = true) (hds : ∀ x ∈ ds, x.minTime < x.maxTime)
    (hsorted : ds.Pairwise fun a b => a.minTime ≤ b.minTime) :
    c.selectOverlappingDirs ds = [] ∧
        ds.Pairwise (fun a b => ¬Overlap minTime maxTime a b) ∨
      ∃ pre g post, ds = pre ++ g ++ post ∧ c.selectOverlappingDirs ds = g.map dir ∧
        g ≠ [] ∧ IsFirstGroup minTime maxTime pre g post := by
  obtain _ | ⟨d, ds⟩ := ds
  · exact .inl ⟨rfl, List.Pairwise.nil⟩
  have heq : c.selectOverlappingDirs (d :: ds) = (overlapLoop d.maxTime d [] ds).map dir := by
    rw [selectOverlappingDirs, if_neg (by simp [hc])]
  rw [heq]
  rcases overlapLoop_nil hds hsorted with ⟨hnil, hall⟩ | ⟨pre, post, hsplit, hfirst⟩
  · exact .inl ⟨by rw [hnil]; rfl, hall⟩
  refine .inr ⟨pre, _, post, hsplit, rfl, fun hnil => hfirst.overlap ?_, hfirst⟩
  rw [hnil]
  exact List.Pairwise.nil

end Overlapping

/-! ### Blocks in one window -/

section Windows

variable {tr t : ℤ}

/-- The formula for negative times rounds down as well, unless the time is too close to the least
`int64`. -/
lemma windowStart_eq (htr : 0 < tr) (hrange : InRange tr) (ht : InRange t)
    (hlow : -2 ^ 63 ≤ t - tr + 1) : windowStart tr t = tr * (t / tr) := by
  obtain ⟨-, htr'⟩ := hrange
  obtain ⟨hlo, hhi⟩ := ht
  have hfloor : tr * (t / tr) ≤ t := Int.mul_ediv_self_le htr.ne'
  have hfloor' : t < tr * (t / tr) + tr := Int.lt_mul_ediv_self_add htr
  have hproduct : InRange (tr * (t / tr)) := ⟨by omega, by omega⟩
  have hquotient : InRange (t / tr) := by
    rcases le_or_gt 0 t with h | h
    · have hle : t / tr ≤ t := Int.ediv_le_self _ h
      have hpos : 0 ≤ t / tr := Int.ediv_nonneg h htr.le
      exact ⟨by omega, by omega⟩
    have hle : t ≤ t / tr := (Int.le_ediv_iff_mul_le htr).2 (by nlinarith)
    have hneg : t / tr < 0 := Int.ediv_neg_of_neg_of_pos h htr
    exact ⟨by omega, by omega⟩
  unfold windowStart
  split_ifs with h
  · rw [Int.tdiv_eq_ediv_of_nonneg h, wrap_eq_self hquotient, wrap_eq_self hproduct]
  -- The quotient is rounded towards zero: that of the negated dividend is rounded down.
  have hquot : (tr - 1 - t) / tr = -(t / tr) := by
    refine ((Int.ediv_emod_unique (r := tr - 1 - t % tr) htr).2 ⟨?_, ?_, ?_⟩).1
    · have := Int.emod_add_mul_ediv t tr
      linarith
    · have := Int.emod_lt_of_pos t htr
      omega
    · have := Int.emod_nonneg t htr.ne'
      omega
  have htdiv : (t - tr + 1).tdiv tr = t / tr := by
    rw [show t - tr + 1 = -(tr - 1 - t) by ring, Int.neg_tdiv,
      Int.tdiv_eq_ediv_of_nonneg (by omega), hquot, neg_neg]
  rw [wrap_wrap_add, wrap_eq_self ⟨hlow, by omega⟩, htdiv, wrap_eq_self hquotient,
    wrap_eq_self hproduct]

/-- A block that ends within the window of its start: the end of the window is an `int64`. -/
lemma windowEnd_eq {maxt : ℤ} (htr : 0 < tr) (hrange : InRange tr) (ht : InRange t)
    (hlow : -2 ^ 63 ≤ t - tr + 1) (hlt : t < maxt) (hmaxt : maxt ≤ windowEnd tr t) :
    windowEnd tr t = tr * (t / tr) + tr := by
  have hstart := windowStart_eq htr hrange ht hlow
  have hfloor : tr * (t / tr) ≤ t := Int.mul_ediv_self_le htr.ne'
  have hfloor' : t < tr * (t / tr) + tr := Int.lt_mul_ediv_self_add htr
  obtain ⟨-, htr'⟩ := hrange
  obtain ⟨hlo, hhi⟩ := ht
  rw [windowEnd, hstart] at hmaxt ⊢
  by_cases hover : tr * (t / tr) + tr < 2 ^ 63
  · exact wrap_eq_self ⟨by omega, hover⟩
  -- Otherwise the end is negative, and no block that starts in the window ends before it.
  rw [wrap_eq_sub (not_lt.1 hover) (by omega)] at hmaxt
  omega

/-- `d` is in the window `k` of size `tr`. -/
def InWindow (tr k : ℤ) (d : DirMeta) : Prop :=
  k * tr ≤ d.minTime ∧ d.maxTime ≤ (k + 1) * tr

instance (tr k : ℤ) (d : DirMeta) : Decidable (InWindow tr k d) :=
  inferInstanceAs (Decidable (_ ∧ _))

/-- The times of a block are `int64`s, and the start of its window is one. -/
structure Aligns (tr : ℤ) (d : DirMeta) : Prop where
  minTime_lt_maxTime : d.minTime < d.maxTime
  inRange : InRange d.minTime
  low : -2 ^ 63 ≤ d.minTime - tr + 1

variable {ds p : List DirMeta}

/-- Each part is of neighbouring blocks. -/
lemma splitLoop_infix {fuel : ℕ} (hp : p ∈ splitLoop tr fuel ds) : p <:+: ds := by
  induction fuel generalizing ds with
  | zero => simp [splitLoop] at hp
  | succ fuel ih =>
    obtain _ | ⟨d, ds⟩ := ds
    · simp [splitLoop] at hp
    simp only [splitLoop] at hp
    split_ifs at hp with hskip
    · exact (ih hp).trans (suffix_cons d ds).isInfix
    rcases mem_cons.1 hp with rfl | hp
    · exact ⟨[], _, takeWhile_append_dropWhile⟩
    · exact (ih hp).trans (dropWhile_suffix _).isInfix

/-- Each part is in one window. -/
lemma splitLoop_window (htr : 0 < tr) (hrange : InRange tr) {fuel : ℕ}
    (hds : ∀ d ∈ ds, Aligns tr d) (hsorted : ds.Pairwise fun a b => a.minTime ≤ b.minTime)
    (hp : p ∈ splitLoop tr fuel ds) : ∃ k, ∀ d ∈ p, InWindow tr k d := by
  induction fuel generalizing ds with
  | zero => simp [splitLoop] at hp
  | succ fuel ih =>
    obtain _ | ⟨d, ds⟩ := ds
    · simp [splitLoop] at hp
    simp only [splitLoop] at hp
    split_ifs at hp with hskip
    · exact ih (fun x hx => hds x (mem_cons_of_mem _ hx)) hsorted.of_cons hp
    rcases mem_cons.1 hp with rfl | hp
    · -- The window is the one of the first block. The others start later.
      refine ⟨d.minTime / tr, fun x hx => ?_⟩
      have hd := hds d mem_cons_self
      have hend := windowEnd_eq htr hrange hd.inRange hd.low hd.minTime_lt_maxTime (not_lt.1 hskip)
      have hstart : tr * (d.minTime / tr) ≤ d.minTime := Int.mul_ediv_self_le htr.ne'
      have hmin : d.minTime ≤ x.minTime := by
        rcases mem_cons.1 ((takeWhile_subset _) hx) with rfl | hx
        · exact le_refl _
        · exact (pairwise_cons.1 hsorted).1 x hx
      have hmax : x.maxTime ≤ windowEnd tr d.minTime := by
        simpa using mem_takeWhile_imp hx
      exact ⟨by linarith, by linarith⟩
    · have hsuffix := dropWhile_suffix (l := d :: ds)
        fun x => decide ¬x.maxTime > windowEnd tr d.minTime
      exact ih (fun x hx => hds x (hsuffix.subset hx)) (hsorted.sublist hsuffix.sublist) hp

lemma splitByRange_of_ne_zero (htr : tr ≠ 0) (ds : List DirMeta) :
    splitByRange ds tr = some (splitLoop tr ds.length ds) := by
  simp [splitByRange, htr]

/-- What a selected group is. -/
lemma selectLoop_spec (ds : List DirMeta) (highTime : ℤ) {ivs : List ℤ}
    (hivs : ∀ iv ∈ ivs, iv ≠ 0) :
    ∃ p, selectLoop ds highTime ivs = some p ∧
      (p = [] ∨ ∃ iv ∈ ivs, p ∈ splitLoop iv ds.length ds ∧ selected highTime iv p = true) := by
  induction ivs with
  | nil => exact ⟨[], rfl, .inl rfl⟩
  | cons iv ivs ih =>
    obtain ⟨hiv, hivs⟩ := forall_mem_cons.1 hivs
    rw [selectLoop, splitByRange_of_ne_zero hiv]
    rcases hfind : (splitLoop iv ds.length ds).find? (selected highTime iv) with _ | p
    · obtain ⟨p, heq, hp⟩ := ih hivs
      refine ⟨p, by simpa [hfind] using heq, hp.imp_right ?_⟩
      rintro ⟨iv', hiv', hrest⟩
      exact ⟨iv', mem_cons_of_mem _ hiv', hrest⟩
    · exact ⟨p, by simp [hfind], .inr ⟨iv, mem_cons_self, mem_of_find?_eq_some hfind,
        find?_some hfind⟩⟩

lemma selectDirs_spec {c : LeveledCompactor} (ds : List DirMeta) (hranges : ∀ r ∈ c.ranges, r ≠ 0) :
    ∃ p, c.selectDirs ds = some p ∧
      (p = [] ∨ ∃ highTime, ∃ iv ∈ c.ranges, p ∈ splitLoop iv ds.length ds ∧
        selected highTime iv p = true) := by
  unfold selectDirs
  split
  next r iv ivs last hr hlast =>
    obtain ⟨p, heq, hp⟩ := selectLoop_spec ds last.minTime
      fun iv' (hiv' : iv' ∈ iv :: ivs) => hranges iv' (by rw [hr]; exact mem_cons_of_mem _ hiv')
    refine ⟨p, heq, hp.imp_right ?_⟩
    rintro ⟨iv', hiv', hrest⟩
    exact ⟨last.minTime, iv', by rw [hr]; exact mem_cons_of_mem _ hiv', hrest⟩
  next => exact ⟨[], rfl, .inl rfl⟩

lemma not_failed_of_selected {highTime iv : ℤ} (h : selected highTime iv p = true) :
    ∀ d ∈ p, d.blockMeta.failed = false := by
  simp only [selected, Bool.and_eq_true, all_eq_true] at h
  simpa using h.1

end Windows

/-! ### What is planned -/

/-- The time range of a block. -/
def DirMeta.timeRange (d : DirMeta) : ℤ × ℤ :=
  (d.minTime, d.maxTime)

/-- The time range `CompactBlockMetas` gives the block that replaces the blocks listed. -/
def mergedRange : List DirMeta → Option (ℤ × ℤ)
  | [] => none
  | d :: ds => some ((d :: ds).foldl (fun mint b => if b.minTime < mint then b.minTime else mint)
      d.minTime, (d :: ds).foldl (fun maxt b => if b.maxTime > maxt then
        b.maxTime else maxt) d.maxTime)

section Merged

variable {ds p pre post : List DirMeta} {m : ℤ × ℤ}

lemma le_foldl_minTime {a mint : ℤ} (hmint : a ≤ mint) (hds : ∀ d ∈ ds, a ≤ d.minTime) :
    a ≤ ds.foldl (fun mint b => if b.minTime < mint then b.minTime else mint) mint := by
  refine foldlRecOn ds _ hmint fun mint hmint d hd => ?_
  split_ifs
  · exact hds d hd
  · exact hmint

lemma foldl_maxTime_le {b maxt : ℤ} (hmaxt : maxt ≤ b) (hds : ∀ d ∈ ds, d.maxTime ≤ b) :
    ds.foldl (fun maxt b => if b.maxTime > maxt then b.maxTime else maxt) maxt ≤ b := by
  refine foldlRecOn (motive := (· ≤ b)) ds _ hmaxt fun maxt hmaxt d hd => ?_
  split_ifs
  · exact hds d hd
  · exact hmaxt

lemma mergedRange_bounds (hm : mergedRange p = some m) :
    (∀ a, (∀ d ∈ p, a ≤ d.minTime) → a ≤ m.1) ∧ ∀ b, (∀ d ∈ p, d.maxTime ≤ b) → m.2 ≤ b := by
  obtain _ | ⟨d, ds⟩ := p
  · simp [mergedRange] at hm
  obtain rfl : _ = m := Option.some.inj hm
  exact ⟨fun a ha => le_foldl_minTime (ha d mem_cons_self) ha,
    fun b hb => foldl_maxTime_le (hb d mem_cons_self) hb⟩

/-- One block in place of neighbouring ones overlaps no other block. -/
lemma pairwise_mergedRange (hds : ∀ d ∈ pre ++ p ++ post, d.minTime < d.maxTime)
    (hsorted : (pre ++ p ++ post).Pairwise fun a b => a.minTime ≤ b.minTime)
    (hall : (pre ++ p ++ post).Pairwise fun a b => ¬Overlap minTime maxTime a b)
    (hm : mergedRange p = some m) :
    (pre.map timeRange ++ [m] ++ post.map timeRange).Pairwise
      fun a b => ¬Overlap Prod.fst Prod.snd a b := by
  have hle := pairwise_le_of_not_overlap hds hsorted hall
  obtain ⟨hprep, hpost, hacross⟩ := pairwise_append.1 hle
  obtain ⟨hpre, -, hbefore⟩ := pairwise_append.1 hprep
  obtain ⟨hmin, hmax⟩ := mergedRange_bounds hm
  have hpreM : ∀ a ∈ pre, a.maxTime ≤ m.1 := fun a ha => hmin _ fun d hd => hbefore a ha d hd
  have hMpost : ∀ b ∈ post, m.2 ≤ b.minTime := fun b hb =>
    hmax _ fun d hd => hacross d (mem_append_right _ hd) b hb
  have hprePost : ∀ a ∈ pre, ∀ b ∈ post, a.maxTime ≤ b.minTime := fun a ha b hb =>
    hacross a (mem_append_left _ ha) b hb
  refine List.Pairwise.imp not_overlap_of_le ?_
  simp only [pairwise_append, pairwise_map, pairwise_singleton, mem_append, mem_map, mem_singleton]
  refine ⟨⟨hpre, trivial, ?_⟩, hpost, ?_⟩
  · rintro _ ⟨a, ha, rfl⟩ _ rfl
    exact hpreM a ha
  rintro _ (⟨a, ha, rfl⟩ | rfl) _ ⟨b, hb, rfl⟩
  · exact hprePost a ha b hb
  · exact hMpost b hb

end Merged

/-- The blocks `p` can be replaced by one: they are neighbours before the newest block, with no
failed one among them, and one block in their place overlaps no other one. -/
structure Replaceable (pre p post : List DirMeta) (newest : DirMeta) : Prop where
  not_failed : ∀ d ∈ p, d.blockMeta.failed = false
  disjoint : ∃ m, mergedRange p = some m ∧
    (pre.map timeRange ++ [m] ++ (post ++ [newest]).map timeRange).Pairwise
      fun a b => ¬Overlap Prod.fst Prod.snd a b

section Plan

variable {c : LeveledCompactor} {sort : List DirMeta → List DirMeta}

lemma length_tombstonesLoop_le (range : ℤ) (ds : List DirMeta) :
    (tombstonesLoop range ds).length ≤ 1 := by
  induction ds with
  | nil => simp [tombstonesLoop]
  | cons d ds ih =>
    simp only [tombstonesLoop]
    split_ifs <;> simp [ih]

/-- Without overlapping blocks: several blocks are planned only by `selectDirs`. -/
lemma planSorted_spec {ds : List DirMeta} {newest : DirMeta} (hne : c.ranges ≠ [])
    (hranges : ∀ r ∈ c.ranges, r ≠ 0) (hnil : c.selectOverlappingDirs (ds ++ [newest]) = []) :
    ∃ res, c.planSorted (ds ++ [newest]) = some res ∧
      (1 < res.length → ∃ p, res = p.map dir ∧ ∃ highTime, ∃ iv ∈ c.ranges,
        p ∈ splitLoop iv ds.length ds ∧ selected highTime iv p = true) := by
  obtain ⟨p, hselect, hp⟩ := selectDirs_spec ds hranges
  simp only [planSorted, hnil, dropLast_concat, hselect]
  rcases hp with rfl | hp
  · by_cases hds : ds = []
    · exact ⟨[], by simp [hds], by simp⟩
    · obtain ⟨range, hrange⟩ : ∃ range, c.ranges[c.ranges.length / 2]? = some range := by
        have hpos := length_pos_iff.2 hne
        exact ⟨_, getElem?_eq_getElem (by omega)⟩
      refine ⟨tombstonesLoop range ds.reverse, by simp [hds, hrange], fun hlt => ?_⟩
      exact absurd (length_tombstonesLoop_le range ds.reverse) (not_le.2 hlt)
  · have hpne : p ≠ [] := by
      rintro rfl
      obtain ⟨highTime, iv, -, -, hselected⟩ := hp
      simp [selected] at hselected
    exact ⟨p.map dir, by simp [hpne], fun _ => ⟨p, rfl, hp⟩⟩

/-- **What `plan` returns.** If two blocks overlap, the first group of overlapping blocks. Otherwise
several blocks only if they can be replaced by one. These are in one window of a configured range,
unless a block starts so early that the start of a window is below the least `int64`. -/
theorem plan_spec (hc : c.enableOverlappingCompaction = true) (hsort : SortsByMinTime sort)
    (hne : c.ranges ≠ []) (hranges : ∀ r ∈ c.ranges, 0 < r ∧ InRange r)
    {dms : List DirMeta} (hdms : ∀ d ∈ dms, d.minTime < d.maxTime) :
    (¬dms.Pairwise (fun a b => ¬Overlap minTime maxTime a b) →
      ∃ pre g post, sort dms = pre ++ g ++ post ∧ c.plan sort dms = some (g.map dir) ∧
        IsFirstGroup minTime maxTime pre g post) ∧
    (dms.Pairwise (fun a b => ¬Overlap minTime maxTime a b) → dms ≠ [] →
      ∃ res, c.plan sort dms = some res ∧
        (1 < res.length → ∃ pre p post newest, sort dms = pre ++ p ++ post ++ [newest] ∧
          res = p.map dir ∧ Replaceable pre p post newest ∧
          ((∀ d ∈ dms, InRange d.minTime ∧ ∀ r ∈ c.ranges, -2 ^ 63 ≤ d.minTime - r + 1) →
            ∃ r ∈ c.ranges, ∃ k, ∀ d ∈ p, InWindow r k d))) := by
  have hperm := hsort.perm dms
  have hsorted := hsort.sorted dms
  have hvalid : ∀ d ∈ sort dms, d.minTime < d.maxTime := fun d hd => hdms d (hperm.mem_iff.1 hd)
  have hpairwise : (sort dms).Pairwise (fun a b => ¬Overlap minTime maxTime a b) ↔
      dms.Pairwise (fun a b => ¬Overlap minTime maxTime a b) :=
    hperm.pairwise_iff fun h h' => h h'.symm
  have hselect := selectOverlappingDirs_spec hc hvalid hsorted
  constructor
  · intro hoverlap
    rcases hselect with ⟨-, hall⟩ | ⟨pre, g, post, hsplit, heq, hg, hfirst⟩
    · exact absurd (hpairwise.1 hall) hoverlap
    · refine ⟨pre, g, post, hsplit, ?_, hfirst⟩
      simp [plan, planSorted, heq, hg]
  · intro hall hnonempty
    have hnil : c.selectOverlappingDirs (sort dms) = [] := by
      rcases hselect with ⟨hnil, -⟩ | ⟨pre, g, post, hsplit, -, -, hfirst⟩
      · exact hnil
      · exact absurd (hsplit ▸ hpairwise.2 hall) hfirst.not_pairwise
    obtain ⟨ds, newest, hds⟩ : ∃ ds newest, sort dms = ds ++ [newest] := by
      rcases eq_nil_or_concat (sort dms) with hempty | ⟨ds, newest, hds⟩
      · exact absurd (perm_nil.1 (hempty ▸ hperm.symm)) hnonempty
      · exact ⟨ds, newest, by rw [hds, concat_eq_append]⟩
    rw [hds] at hnil
    obtain ⟨res, hplan, hseveral⟩ :=
      planSorted_spec hne (fun r hr => (hranges r hr).1.ne') hnil
    refine ⟨res, by rw [plan, hds, hplan], fun hlt => ?_⟩
    obtain ⟨p, rfl, highTime, iv, hiv, hp, hselected⟩ := hseveral hlt
    obtain ⟨pre, post, hsplit⟩ := splitLoop_infix hp
    have heq : sort dms = pre ++ p ++ (post ++ [newest]) := by rw [hds, ← hsplit]; simp
    have hpne : p ≠ [] := by
      rintro rfl
      simp at hlt
    obtain ⟨m, hm⟩ : ∃ m, mergedRange p = some m := by
      obtain ⟨d, p, rfl⟩ := exists_cons_of_ne_nil hpne
      exact ⟨_, rfl⟩
    refine ⟨pre, p, post, newest, by rw [heq]; simp, rfl,
      ⟨not_failed_of_selected hselected, m, hm, ?_⟩, fun hlow => ⟨iv, hiv, ?_⟩⟩
    · exact pairwise_mergedRange (heq ▸ hvalid) (heq ▸ hsorted) (heq ▸ hpairwise.2 hall) hm
    refine splitLoop_window (hranges iv hiv).1 (hranges iv hiv).2 (fun d hd => ?_) ?_ hp
    · have hmem : d ∈ sort dms := by rw [hds]; exact mem_append_left _ hd
      have hlow' := hlow d (hperm.mem_iff.1 hmem)
      exact ⟨hvalid d hmem, hlow'.1, hlow'.2 iv hiv⟩
    · rw [hds] at hsorted
      exact (pairwise_append.1 hsorted).1

/-- Insertion sort is one of the sorts. -/
def sortByMinTime (dms : List DirMeta) : List DirMeta :=
  dms.insertionSort fun a b => a.minTime ≤ b.minTime

lemma sortsByMinTime_sortByMinTime : SortsByMinTime sortByMinTime := by
  exact ⟨fun dms => perm_insertionSort _ dms, fun dms => pairwise_insertionSort _ dms⟩

/-- A block of the given time range, with no series. -/
def blockOf (dir : String) (mint maxt : ℤ) : DirMeta :=
  ⟨dir, ⟨(0 : BitVec 128), mint, maxt, ⟨0, 0⟩, false, false, []⟩⟩

/-- Three blocks fill a window of 30. -/
theorem plan_spec_window : ∃ pre p post newest,
    sortByMinTime [blockOf "d" 30 40, blockOf "a" 0 10, blockOf "c" 20 30, blockOf "b" 10 20] =
      pre ++ p ++ post ++ [newest] ∧
    ["a", "b", "c"] = p.map dir ∧ Replaceable pre p post newest := by
  have hvalid : ∀ d ∈ [blockOf "d" 30 40, blockOf "a" 0 10, blockOf "c" 20 30, blockOf "b" 10 20],
      d.minTime < d.maxTime := by decide
  obtain ⟨res, hplan, hseveral⟩ := (plan_spec (c := ⟨[10, 30], true⟩) rfl
    sortsByMinTime_sortByMinTime (by simp) (by decide) hvalid).2 (by decide) (by simp)
  obtain rfl : ["a", "b", "c"] = res := Option.some.inj (by rw [← hplan]; decide)
  obtain ⟨pre, p, post, newest, hsplit, hp, hreplaceable, -⟩ := hseveral (by decide)
  exact ⟨pre, p, post, newest, hsplit, hp, hreplaceable⟩

/-- Two blocks at the least `int64`: the start of their window wraps around, so they are taken to be
in one window, which they are not. -/
theorem plan_outside_window :
    plan ⟨[5, 10], true⟩ sortByMinTime [blockOf "a" (-2 ^ 63) (-2 ^ 63 + 4),
        blockOf "b" (-2 ^ 63 + 4) (-2 ^ 63 + 10), blockOf "c" 0 5] = some ["a", "b"] ∧
      ¬∃ r ∈ [(5 : ℤ), 10], ∃ k, InWindow r k (blockOf "a" (-2 ^ 63) (-2 ^ 63 + 4)) ∧
        InWindow r k (blockOf "b" (-2 ^ 63 + 4) (-2 ^ 63 + 10)) := by
  refine ⟨by decide, ?_⟩
  rintro ⟨r, hr, k, ⟨hlo, -⟩, -, hhi⟩
  simp only [minTime, maxTime, blockOf] at hlo hhi
  simp only [mem_cons, not_mem_nil, or_false] at hr
  rcases hr with rfl | rfl <;> omega

end Plan

end Prometheus.Tsdb
