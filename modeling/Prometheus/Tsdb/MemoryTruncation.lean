import Prometheus.Lib.GoInt
import Prometheus.Lib.Transition

/-!
# Head compactions and queriers

`DB.Querier` of `tsdb/db.go` next to the compaction of the head: the block of the old samples is
loaded (`reloadBlocks`), and then `truncateMemory` of `tsdb/head.go` removes the chunks of this
block from the head. Samples are committed at the same time, in order and out of order.

Each of these threads goes on by single loads and stores of what they share. A querier looks up the
blocks, opens a reader of the head, which registers the time range it reads, and then asks whether a
truncation is in process (`IsQuerierCollidingWithTruncation`). The truncation publishes its time,
sets its flag, waits until no range that overlaps is registered, and then removes chunks series by
series. The whole of `DB.Querier` has a lock on the list of blocks, for which a reload has to wait.

Chunks are lists of times. Samples have no values here, and appenders are left out: a commit is one
step, at any time.
-/

namespace Prometheus.Tsdb.MemoryTruncation

open List

/-! ### The chunks of a series -/

/-- The timestamps in a chunk, within the range that its metadata gives. -/
structure Chunk where
  times : List ℤ
  minTime : ℤ
  maxTime : ℤ
  within : ∀ t ∈ times, minTime ≤ t ∧ t ≤ maxTime
  le : minTime ≤ maxTime

/-- One chunk before another. -/
def Chunk.Before (c d : Chunk) : Prop :=
  c.maxTime < d.minTime

instance (c d : Chunk) : Decidable (c.Before d) :=
  inferInstanceAs (Decidable (_ < _))

lemma Chunk.Before.maxTime_lt {c d : Chunk} (h : c.Before d) : c.maxTime < d.maxTime :=
  lt_of_lt_of_le h d.le

/-- A `memSeries`: its in-order chunks, the newest of the `headChunks` first, and the times of its
out-of-order samples. -/
structure Series where
  mmappedChunks : List Chunk
  headChunks : List Chunk
  ooo : List ℤ
  ordered : (mmappedChunks ++ headChunks.reverse).Pairwise Chunk.Before

namespace Series

def empty : Series :=
  ⟨[], [], [], .nil⟩

variable (s : Series)

/-- The in-order chunks, from the oldest to the newest. -/
def chunks : List Chunk :=
  s.mmappedChunks ++ s.headChunks.reverse

/-- The times of the in-order samples. -/
def times : List ℤ :=
  s.chunks.flatMap Chunk.times

/-- `memSeries.minTime`. -/
def minTime : ℤ :=
  match s.mmappedChunks, s.headChunks.getLast? with
  | c :: _, _ => c.minTime
  | [], some c => c.minTime
  | [], none => GoInt.minInt64

/-- The chunk with one more sample at the end. -/
def appended (c : Chunk) (t : ℤ) (h : c.maxTime < t) : Chunk where
  times := c.times ++ [t]
  minTime := c.minTime
  maxTime := t
  within u hu := by
    have hle := c.le
    obtain hu | hu := List.mem_append.1 hu
    · have := c.within u hu
      omega
    · obtain rfl := List.mem_singleton.1 hu
      omega
  le := by
    have hle := c.le
    omega

def single (t : ℤ) : Chunk where
  times := [t]
  minTime := t
  maxTime := t
  within u hu := by simp_all
  le := le_rfl

/-- A sample is appended: to the newest chunk, or to a new one if there is none or it is to be
`cut`. It has to be newer than all. -/
def append (t : ℤ) (cut : Bool) : Option Series :=
  if h : ∀ c ∈ s.chunks, c.maxTime < t then
    match hc : s.headChunks, cut with
    | c :: cs, false =>
      some { s with
          headChunks := appended c t (h c (by simp [chunks, hc])) :: cs
          ordered := by
            have hordered := s.ordered
            simp only [hc, List.reverse_cons, ← List.append_assoc] at hordered ⊢
            rw [List.pairwise_append] at hordered ⊢
            refine ⟨hordered.1, by simp, fun d hd e he => ?_⟩
            obtain rfl := List.mem_singleton.1 he
            exact hordered.2.2 d hd c (by simp) }
    | _, _ =>
      some { s with
          headChunks := single t :: s.headChunks
          ordered := by
            rw [List.reverse_cons, ← List.append_assoc, List.pairwise_append]
            refine ⟨s.ordered, by simp, fun d hd e he => ?_⟩
            obtain rfl := List.mem_singleton.1 he
            exact h d hd }
  else none

/-- `mmapChunks`: the chunks behind the first of the list are written. -/
def mmapChunks : Series where
  mmappedChunks := s.mmappedChunks ++ s.headChunks.tail.reverse
  headChunks := s.headChunks.take 1
  ooo := s.ooo
  ordered := by
    have hordered := s.ordered
    cases hc : s.headChunks with
    | nil => simpa [hc] using hordered
    | cons c cs => simpa [hc] using hordered

/-- `truncateChunksBefore`, without the out-of-order chunks. -/
def truncateChunksBefore (mint : ℤ) : Series :=
  if s.headChunks.any fun c => c.maxTime < mint then
    -- If any head chunk is truncated, we can truncate all mmapped chunks.
    { s with
      mmappedChunks := []
      headChunks := s.headChunks.takeWhile fun c => !(c.maxTime < mint)
      ordered := by
        refine s.ordered.sublist ?_
        have hpre := (List.takeWhile_prefix (l := s.headChunks) fun c =>
          !(c.maxTime < mint)).sublist
        exact (List.reverse_sublist.2 hpre).trans (List.sublist_append_right _ _) }
  else
    { s with
      mmappedChunks := s.mmappedChunks.dropWhile fun c => c.maxTime < mint
      ordered := s.ordered.sublist ((List.dropWhile_sublist _).append_right _) }

variable {s s' : Series} {mint : ℤ} {c : Chunk} {u : ℤ}

lemma ordered_chunks (s : Series) : s.chunks.Pairwise Chunk.Before :=
  s.ordered

lemma mem_times {t : ℤ} : t ∈ s.times ↔ ∃ c ∈ s.chunks, t ∈ c.times :=
  mem_flatMap

lemma times_empty : empty.times = [] := rfl

lemma append_spec {t : ℤ} {cut : Bool} (h : s.append t cut = some s') :
    (∀ u, u ∈ s'.times ↔ u = t ∨ u ∈ s.times) ∧ s'.ooo = s.ooo := by
  unfold append at h
  split_ifs at h with hlast
  split at h
  · next c cs hc =>
    cases h
    refine ⟨fun u => ?_, rfl⟩
    simp only [times, chunks, hc, appended, flatMap_append, flatMap_cons, flatMap_nil,
      reverse_cons, mem_append, mem_singleton, append_nil]
    tauto
  · cases h
    refine ⟨fun u => ?_, rfl⟩
    simp only [times, chunks, single, flatMap_append, flatMap_cons, flatMap_nil,
      reverse_cons, mem_append, mem_singleton, append_nil]
    tauto

lemma chunks_mmapChunks (s : Series) : s.mmapChunks.chunks = s.chunks := by
  cases hc : s.headChunks <;> simp [chunks, mmapChunks, hc]

lemma times_mmapChunks (s : Series) : s.mmapChunks.times = s.times := by
  rw [times, chunks_mmapChunks, times]

/-- The oldest chunk begins with the series. -/
lemma minTime_eq_head {cs : List Chunk} (h : s.chunks = c :: cs) : s.minTime = c.minTime := by
  unfold minTime
  cases hm : s.mmappedChunks with
  | cons d ds =>
    rw [chunks, hm, cons_append] at h
    cases h
    rfl
  | nil =>
    rw [chunks, hm, nil_append, reverse_eq_cons_iff] at h
    simp [h]

lemma minTime_le (hu : u ∈ s.times) : s.minTime ≤ u := by
  obtain ⟨c, hc, hu⟩ := mem_times.1 hu
  have hle := (c.within u hu).1
  cases hs : s.chunks with
  | nil => simp [hs] at hc
  | cons d ds =>
    rw [minTime_eq_head hs]
    rw [hs] at hc
    obtain rfl | hc := mem_cons.1 hc
    · exact hle
    have hbefore := rel_of_pairwise_cons (hs ▸ s.ordered_chunks) hc
    have hd := d.le
    unfold Chunk.Before at hbefore
    omega

lemma chunks_truncate_sublist (s : Series) (mint : ℤ) :
    (s.truncateChunksBefore mint).chunks.Sublist s.chunks := by
  unfold truncateChunksBefore
  split_ifs
  · exact (reverse_sublist.2 (takeWhile_sublist _)).trans (sublist_append_right _ _)
  · exact (dropWhile_sublist _).append_right _

/-- In a list that begins with the newest chunk, all chunks up to one with samples from `mint` on
are kept. -/
lemma mem_takeWhile_of_ordered {cs : List Chunk}
    (hcs : cs.Pairwise fun c d => Chunk.Before d c) (hc : c ∈ cs) (hmax : mint ≤ c.maxTime) :
    c ∈ cs.takeWhile fun c => !(c.maxTime < mint) := by
  induction cs with
  | nil => exact nomatch hc
  | cons d ds ih =>
    rw [pairwise_cons] at hcs
    have hd : mint ≤ d.maxTime := by
      obtain rfl | hc := mem_cons.1 hc
      · exact hmax
      · exact hmax.trans (hcs.1 c hc).maxTime_lt.le
    rw [takeWhile_cons_of_pos (by simpa using hd)]
    obtain rfl | hc := mem_cons.1 hc
    · exact mem_cons_self
    · exact mem_cons_of_mem _ (ih hcs.2 hc)

/-- A chunk with samples from `mint` on is not truncated. -/
lemma mem_chunks_truncate (hc : c ∈ s.chunks) (hmax : mint ≤ c.maxTime) :
    c ∈ (s.truncateChunksBefore mint).chunks := by
  obtain ⟨-, hhead, hacross⟩ := pairwise_append.1 s.ordered
  rw [pairwise_reverse] at hhead
  unfold truncateChunksBefore
  split_ifs with hany
  · obtain ⟨d, hd, hold⟩ := any_eq_true.1 hany
    rw [decide_eq_true_eq] at hold
    obtain hc | hc := mem_append.1 hc
    · -- All mmapped chunks are before the head chunk that is truncated.
      have := (hacross c hc d (mem_reverse.2 hd)).maxTime_lt
      omega
    · exact mem_reverse.2 (mem_takeWhile_of_ordered hhead (mem_reverse.1 hc) hmax)
  obtain hc | hc := mem_append.1 hc
  · refine mem_append_left _ ?_
    rw [← takeWhile_append_dropWhile (p := fun c => decide (Chunk.maxTime c < mint))
      (l := s.mmappedChunks), mem_append] at hc
    obtain hc | hc := hc
    · have := mem_takeWhile_imp hc
      rw [decide_eq_true_eq] at this
      omega
    · exact hc
  · exact mem_append_right _ hc

lemma times_truncate_subset (hu : u ∈ (s.truncateChunksBefore mint).times) : u ∈ s.times := by
  obtain ⟨c, hc, hu⟩ := mem_times.1 hu
  exact mem_times.2 ⟨c, (s.chunks_truncate_sublist mint).subset hc, hu⟩

lemma mem_times_truncate (hu : u ∈ s.times) (hle : mint ≤ u) :
    u ∈ (s.truncateChunksBefore mint).times := by
  obtain ⟨c, hc, hu⟩ := mem_times.1 hu
  exact mem_times.2 ⟨c, mem_chunks_truncate hc (hle.trans (c.within u hu).2), hu⟩

lemma ooo_truncate (s : Series) (mint : ℤ) : (s.truncateChunksBefore mint).ooo = s.ooo := by
  unfold truncateChunksBefore
  split_ifs <;> rfl

end Series

/-! ### The state -/

/-- A sample: its series and its time. -/
abbrev Sample := ℕ × ℤ

/-- A block, with the times of the samples of each series. -/
structure Block where
  minTime : ℤ
  maxTime : ℤ
  samples : ℕ → List ℤ
  within : ∀ i, ∀ t ∈ samples i, minTime ≤ t ∧ t < maxTime

namespace Block

def overlapsClosedInterval (b : Block) (mint maxt : ℤ) : Bool :=
  b.minTime ≤ maxt && mint < b.maxTime

/-- The block has the sample. -/
def Has (b : Block) (x : Sample) : Prop :=
  x.2 ∈ b.samples x.1

/-- The block of the samples of the head from `mint` on and before `maxt`. -/
def ofHead (series : ℕ → Series) (mint maxt : ℤ) : Block where
  minTime := mint
  maxTime := maxt
  samples i := (series i).times.filter fun t => mint ≤ t && t < maxt
  within i t ht := by simpa using (List.mem_filter.1 ht).2

end Block

/-- What a call of `DB.Querier` does next. -/
inductive QuerierPC
  | loadMinOOOTime
  | loadMaxOOOTime
  | loadInoMint
  | testMinTime
  | openIndex
  | openChunks
  | loadInProcess
  | loadTruncationTime
  | closeReader (newMint : Option ℤ)
  | openNewIndex (newMint : ℤ)
  | openNewChunks (newMint : ℤ)
  | finish
  /-- The querier was returned. -/
  | inUse
  | closed
deriving DecidableEq

/-- A call of `DB.Querier`, and then the querier. -/
structure Querier where
  mint : ℤ
  maxt : ℤ
  blocks : List Block
  minOOOTime : ℤ
  overlapsOOO : Bool
  inoMint : ℤ
  /-- The `mint` of the index reader of the head. -/
  index : ℤ
  /-- Whether there is a querier of the head. -/
  headQuerier : Bool
  /-- Whether it is wrapped in a `HeadAndOOOQuerier`. -/
  wrapped : Bool
  /-- The ranges that are registered, the newest first. -/
  reads : List (ℤ × ℤ)
  pc : QuerierPC
  /-- What was committed before the call. -/
  committed : List Sample
  committedOOO : List Sample

/-- What the compaction does next. -/
inductive CompactionPC
  | idle
  | reload
  | check
  | publish
  | setInProcess
  | loadMinTime
  | wait
  | storeMinTime
  | startGC
  | gc
  | advance
  | storeAdvanced
  | storeMinOOOTime
  | clearInProcess
deriving DecidableEq

/-- The variables of the compaction. -/
structure Compaction where
  pc : CompactionPC
  block : Block
  /-- The time of the truncation. -/
  mint : ℤ
  /-- The lower end of the range that is waited for. -/
  waitMint : ℤ
  headMaxt : ℤ
  gcMint : ℤ
  /-- The series that `gc` has still to check. -/
  todo : List ℕ
  actualMint : ℤ
  minOOOTime : ℤ
  /-- The new lower end of the head after `gc`. -/
  newMint : ℤ
  /-- The samples that were committed since `gc` has checked their series. -/
  late : List Sample
  lateOOO : List Sample

/-- The head, the blocks, the compaction and the queriers. -/
structure State where
  refs : List ℕ
  series : ℕ → Series
  minTime : ℤ
  maxTime : ℤ
  minValidTime : ℤ
  minOOOTime : ℤ
  maxOOOTime : ℤ
  lastMemoryTruncationTime : ℤ
  memTruncationInProcess : Bool
  blocks : List Block
  queriers : List Querier
  compaction : Compaction
  committed : List Sample
  committedOOO : List Sample

structure Options where
  chunkRange : ℤ
  outOfOrderTimeWindow : ℤ

/-! ### Steps of a querier -/

def overlapsClosedInterval (mint1 maxt1 mint2 maxt2 : ℤ) : Bool :=
  mint1 ≤ maxt2 && mint2 ≤ maxt1

namespace Querier

variable (q : Querier)

/-- `DB.Querier` has the lock on the blocks until it returns. -/
def locked : Bool :=
  q.pc ≠ .inUse && q.pc ≠ .closed

/-- What the querier does next, if it goes on by itself. -/
def next (st : State) : Option Querier :=
  match q.pc with
  | .loadMinOOOTime => some { q with minOOOTime := st.minOOOTime, pc := .loadMaxOOOTime }
  | .loadMaxOOOTime =>
    some { q with
      overlapsOOO := MemoryTruncation.overlapsClosedInterval q.mint q.maxt
        q.minOOOTime st.maxOOOTime
      pc := .loadInoMint }
  | .loadInoMint => some { q with inoMint := max st.minTime q.mint, pc := .testMinTime }
  | .testMinTime =>
    some { q with pc := if q.maxt ≥ st.minTime ∨ q.overlapsOOO then .openIndex else .finish }
  | .openIndex => some { q with index := max q.mint st.minTime, pc := .openChunks }
  | .openChunks =>
    some { q with
      reads := (q.mint, q.maxt) :: q.reads
      headQuerier := true
      pc := .loadInProcess }
  -- The two loads of `IsQuerierCollidingWithTruncation`.
  | .loadInProcess =>
    some { q with pc := if st.memTruncationInProcess then .loadTruncationTime else .finish }
  | .loadTruncationTime =>
    let memTruncTime := st.lastMemoryTruncationTime
    if q.maxt < memTruncTime then some { q with pc := .closeReader none }
    else if q.mint < memTruncTime then some { q with pc := .closeReader (some memTruncTime) }
    else some { q with pc := .finish }
  | .closeReader newMint =>
    some { q with
      reads := q.reads.tail
      headQuerier := false
      pc :=
        match newMint with
        | none => .finish
        | some newMint => .openNewIndex newMint }
  | .openNewIndex newMint =>
    some { q with index := max newMint st.minTime, pc := .openNewChunks newMint }
  | .openNewChunks newMint =>
    some { q with
      reads := (newMint, q.maxt) :: q.reads
      headQuerier := true
      inoMint := newMint
      pc := .finish }
  | .finish =>
    if q.overlapsOOO then
      -- `NewHeadAndOOOQuerier` registers a range of its own.
      some { q with reads := (q.mint, q.maxt) :: q.reads, wrapped := true, pc := .inUse }
    else some { q with pc := .inUse }
  | .inUse | .closed => none

def close : Option Querier :=
  if q.pc = .inUse then some { q with reads := [], pc := .closed } else none

end Querier

/-! ### Steps of the compaction -/

namespace State

variable (opts : Options)

variable (st : State)

/-- `appendableMinValidTime`. -/
def appendableMinValidTime : ℤ :=
  max (st.maxTime - opts.chunkRange / 2) st.minValidTime

/-- Whether the range of some open read overlaps, as in `WaitForPendingReadersInTimeRange`. -/
def overlaps (mint maxt : ℤ) : Bool :=
  st.queriers.any fun q => q.reads.any fun s => s.1 ≤ maxt - 1 && mint ≤ s.2

/-- The lower end of the head after `gc`, which does not go into the appendable window. -/
def advancedMint : ℤ :=
  if st.compaction.actualMint < st.appendableMinValidTime opts then st.compaction.actualMint
  else st.appendableMinValidTime opts

/-- The new lower bound of the out-of-order times. The allowed window may be lower than what `gc`
has seen. -/
def newMinOOOTime : ℤ :=
  let c := st.compaction
  if c.headMaxt - opts.outOfOrderTimeWindow < c.minOOOTime then
    c.headMaxt - opts.outOfOrderTimeWindow
  else c.minOOOTime

/-- The check of the series `i` by `gc`. It may have a `pendingCommit`. -/
def gcCheck (i : ℕ) (todo : List ℕ) (pendingCommit : Bool) : State :=
  let c := st.compaction
  let s := (st.series i).truncateChunksBefore c.gcMint
  { st with
    series := Function.update st.series i s
    compaction :=
      { c with
        todo := todo
        minOOOTime := s.ooo.foldl min c.minOOOTime
        actualMint :=
          if s.chunks ≠ [] ∨ pendingCommit ∨ s.ooo ≠ [] then min c.actualMint s.minTime
          else c.actualMint } }

/-- The next step of a compaction that has begun. -/
def nextCompaction (pendingCommit : Bool) : Option State :=
  let c := st.compaction
  match c.pc with
  | .idle => none
  | .reload =>
    if st.queriers.any Querier.locked then none
    else
      some { st with
        blocks := st.blocks ++ [c.block]
        compaction := { c with pc := .check } }
  -- From here on `truncateMemory`.
  | .check =>
    some { st with
      compaction := { c with pc := if st.minTime ≥ c.mint then .idle else .publish } }
  | .publish =>
    some { st with
      lastMemoryTruncationTime := c.mint
      compaction := { c with pc := .setInProcess } }
  | .setInProcess =>
    some { st with
      memTruncationInProcess := true
      compaction := { c with pc := .loadMinTime } }
  | .loadMinTime =>
    some { st with compaction := { c with waitMint := st.minTime, pc := .wait } }
  | .wait =>
    if st.overlaps c.waitMint c.mint then none
    else some { st with compaction := { c with pc := .storeMinTime } }
  | .storeMinTime =>
    some { st with
      minTime := c.mint
      minValidTime := c.mint
      maxTime := max st.maxTime c.mint
      compaction := { c with pc := .startGC } }
  | .startGC => none
  | .gc =>
    match c.todo with
    | i :: todo => some (st.gcCheck i todo pendingCommit)
    | [] =>
      some { st with
        compaction :=
          { c with
            actualMint := if c.actualMint = GoInt.maxInt64 then c.gcMint else c.actualMint
            pc := .advance } }
  | .advance =>
    if c.actualMint > st.minTime then
      -- The actual mint of the head is higher than the one asked to truncate.
      some { st with
        compaction :=
          { c with
            newMint := st.advancedMint opts
            pc := .storeAdvanced } }
    else some { st with compaction := { c with pc := .storeMinOOOTime } }
  | .storeAdvanced =>
    some { st with
      minTime := c.newMint
      minValidTime := c.newMint
      compaction := { c with pc := .storeMinOOOTime } }
  | .storeMinOOOTime =>
    some { st with
      minOOOTime := st.newMinOOOTime opts
      compaction := { c with pc := .clearInProcess } }
  | .clearInProcess =>
    some { st with
      memTruncationInProcess := false
      compaction := { c with pc := .idle } }

/-! ### All steps -/

/-- What can happen: to the head, in a compaction, or to the querier at an index. -/
inductive Action
  /-- A new series. -/
  | create (i : ℕ)
  /-- An in-order sample is committed. -/
  | commit (i : ℕ) (t : ℤ) (cut : Bool)
  | commitOOO (i : ℕ) (t : ℤ)
  | mmapChunks (i : ℕ)
  /-- A compaction begins: the block of the samples before `mint` is written. -/
  | compact (mint : ℤ)
  /-- `gc` begins to check all series, in some order. -/
  | startGC (order : List ℕ)
  | nextCompaction (pendingCommit : Bool)
  /-- A call of `DB.Querier`. -/
  | querier (mint maxt : ℤ)
  | nextQuerier (n : ℕ)
  | closeQuerier (n : ℕ)

/-- An in-order sample is stored; the times of the head follow. -/
def commit (i : ℕ) (t : ℤ) (s : Series) : State :=
  { st with
    series := Function.update st.series i s
    minTime := min st.minTime t
    maxTime := max st.maxTime t
    compaction :=
      { st.compaction with
        late :=
          if i ∈ st.compaction.todo then st.compaction.late else (i, t) :: st.compaction.late }
    committed := (i, t) :: st.committed }

/-- The same for an out-of-order sample. -/
def commitOOO (i : ℕ) (t : ℤ) : State :=
  { st with
    series := Function.update st.series i { st.series i with ooo := t :: (st.series i).ooo }
    minOOOTime := min st.minOOOTime t
    maxOOOTime := max st.maxOOOTime t
    compaction :=
      { st.compaction with
        lateOOO :=
          if i ∈ st.compaction.todo then st.compaction.lateOOO
          else (i, t) :: st.compaction.lateOOO }
    committedOOO := (i, t) :: st.committedOOO }

/-- The start of `DB.Querier`: the blocks that overlap are looked up. -/
def querier (mint maxt : ℤ) : Querier where
  mint := mint
  maxt := maxt
  blocks := st.blocks.filter fun b => b.overlapsClosedInterval mint maxt
  minOOOTime := 0
  overlapsOOO := false
  inoMint := 0
  index := 0
  headQuerier := false
  wrapped := false
  reads := []
  pc := .loadMinOOOTime
  committed := st.committed
  committedOOO := st.committedOOO

/-- One action, if its guard holds. -/
def step : Action → Option State
  | .create i => some { st with refs := i :: st.refs }
  | .commit i t cut =>
    if i ∈ st.refs then ((st.series i).append t cut).map (st.commit i t) else none
  | .commitOOO i t => if i ∈ st.refs then some (st.commitOOO i t) else none
  | .mmapChunks i =>
    some { st with series := Function.update st.series i (st.series i).mmapChunks }
  | .compact mint =>
    if st.compaction.pc = .idle ∧ GoInt.InRange mint then
      some { st with
        compaction :=
          { st.compaction with
            block := .ofHead st.series st.minTime mint
            mint := mint
            pc := .reload } }
    else none
  | .startGC order =>
    if st.compaction.pc = .startGC ∧ ∀ i ∈ st.refs, i ∈ order then
      some { st with
        compaction :=
          { st.compaction with
            headMaxt := st.maxTime
            gcMint := st.minTime
            todo := order
            actualMint := GoInt.maxInt64
            minOOOTime := GoInt.maxInt64
            late := []
            lateOOO := []
            pc := .gc } }
    else none
  | .nextCompaction pendingCommit => st.nextCompaction opts pendingCommit
  | .querier mint maxt => some { st with queriers := st.queriers ++ [st.querier mint maxt] }
  | .nextQuerier n => do
    let q ← st.queriers[n]?
    let q ← q.next st
    return { st with queriers := st.queriers.set n q }
  | .closeQuerier n => do
    let q ← st.queriers[n]?
    let q ← q.close
    return { st with queriers := st.queriers.set n q }

end State

end Prometheus.Tsdb.MemoryTruncation
