import Prometheus.Tsdb.MemoryTruncation

/-!
# What a querier reads while the head is truncated

A querier should reach every sample of its range that was committed before it was asked for, in its
blocks or in the head, as long as it is used (`AllReached`). And a truncation should not remove
chunks while a reader of the head is in use whose range overlaps (`Protected`).

The invariant is about the samples that a querier needs from the head, since they are not in its
blocks (`Needs`): they are in the head, not below its `minTime`, and not below the time of a
truncation which has waited for readers, or whose block was there when the querier looked up the
blocks. The querier is prepared for them (`Prepared`): what it has loaded so far is not above them.
Here are the invariant and the steps of a querier.
-/

namespace Prometheus.Tsdb.MemoryTruncation

open State GoInt List Option Querier CompactionPC

variable {opts : Options} {st st' : State} {q q' : Querier} {x : Sample}

/-! ### The property -/

variable (st x)

/-- The sample is in the head, in order. -/
def InHead : Prop :=
  x.2 ∈ (st.series x.1).times

/-- The sample is in the head, out of order. -/
def InOOO : Prop :=
  x.2 ∈ (st.series x.1).ooo

variable {st x}

/-- One of the blocks has the sample. -/
def InBlocks (bs : List Block) (x : Sample) : Prop :=
  ∃ b ∈ bs, b.Has x

namespace Querier

variable (q : Querier)

/-- The sample is in the time range of the query. -/
def Asks (x : Sample) : Prop :=
  q.mint ≤ x.2 ∧ x.2 ≤ q.maxt

/-- The querier reads from the head. -/
def readsHead : Bool :=
  q.headQuerier || q.wrapped

/-- From here on it reads the in-order samples of the head. -/
def headMint : ℤ :=
  if q.wrapped then q.inoMint else q.index

/-- An in-order sample is read from a block or from the head. -/
def Reaches (st : State) (q : Querier) (x : Sample) : Prop :=
  InBlocks q.blocks x ∨ q.readsHead ∧ InHead st x ∧ q.headMint ≤ x.2

/-- An out-of-order sample is read only through the wrapped head querier. -/
def ReachesOOO (st : State) (q : Querier) (x : Sample) : Prop :=
  q.wrapped ∧ InOOO st x

end Querier

variable (st)

/-- Every querier in use reaches all samples that it should. -/
def AllReached : Prop :=
  ∀ q ∈ st.queriers, q.pc = .inUse →
    (∀ x ∈ q.committed, q.Asks x → q.Reaches st x) ∧
      ∀ x ∈ q.committedOOO, q.Asks x → q.ReachesOOO st x

/-- The action removes a chunk. -/
def RemovesChunk : State.Action → Prop
  | .nextCompaction _ =>
    st.compaction.pc = .gc ∧ st.compaction.todo.head?.any fun i =>
      ((st.series i).truncateChunksBefore st.compaction.gcMint).chunks.length <
        (st.series i).chunks.length
  | _ => False

/-- The range of the reader of the head overlaps with the range of the truncation. -/
def OverlapsTruncation (q : Querier) : Prop :=
  q.headMint < st.compaction.mint ∧ st.compaction.waitMint ≤ q.maxt

/-- No chunk is removed while a reader of the head is in use whose range overlaps. -/
def Protected (a : State.Action) : Prop :=
  RemovesChunk st a → ∀ q ∈ st.queriers, q.pc = .inUse → q.readsHead → ¬OverlapsTruncation st q

/-! ### The condition -/

/-- Commits come in time. -/
def Timely (opts : Options) (st : State) : State.Action → Prop
  | .commit _ t _ => st.compaction.pc ≠ .idle → st.compaction.mint ≤ t
  | .nextCompaction _ =>
    (st.compaction.pc = .storeAdvanced → ∀ x ∈ st.compaction.late, st.compaction.newMint ≤ x.2) ∧
      (st.compaction.pc = .storeMinOOOTime →
        ∀ x ∈ st.compaction.lateOOO, st.newMinOOOTime opts ≤ x.2)
  | _ => True

/-- No chunk is removed while a querier is in use that gave up its reader of the head, but reads the
head for out-of-order data, and whose range overlaps. -/
def NoneCollided (a : State.Action) : Prop :=
  RemovesChunk st a → ∀ q ∈ st.queriers, q.pc = .inUse → q.wrapped → q.headQuerier = false →
    ¬OverlapsTruncation st q

variable {st}

/-! ### The invariant -/

namespace CompactionPC

/-- The block has been loaded. -/
def truncating : CompactionPC → Bool
  | .idle | .reload => false
  | _ => true

/-- The time of the truncation has been stored. -/
def published : CompactionPC → Bool
  | .idle | .reload | .check | .publish => false
  | _ => true

/-- The flag is set. -/
def inProcess : CompactionPC → Bool
  | .idle | .reload | .check | .publish | .setInProcess => false
  | _ => true

/-- The truncation does not wait for readers any more. -/
def waited : CompactionPC → Bool
  | .idle | .reload | .check | .publish | .setInProcess | .loadMinTime | .wait => false
  | _ => true

variable {pc : CompactionPC}

lemma inProcess_of_waited (h : pc.waited) : pc.inProcess := by
  revert h
  cases pc <;> decide

lemma published_of_inProcess (h : pc.inProcess) : pc.published := by
  revert h
  cases pc <;> decide

lemma truncating_of_inProcess (h : pc.inProcess) : pc.truncating := by
  revert h
  cases pc <;> decide

lemma ne_idle_of_truncating (h : pc.truncating) : pc ≠ .idle := by
  rintro rfl
  exact nomatch h

end CompactionPC

/-- Where committed samples are stored, whatever the compaction and the queriers do. -/
structure HeadInv (st : State) : Prop where
  stored : ∀ x ∈ st.committed, InHead st x ∧ st.minTime ≤ x.2 ∨ InBlocks st.blocks x
  storedOOO : ∀ x ∈ st.committedOOO, InOOO st x
  committed : ∀ x, InHead st x → x ∈ st.committed
  bounds : ∀ x, InOOO st x → st.minOOOTime ≤ x.2 ∧ x.2 ≤ st.maxOOOTime
  refs : ∀ x, InHead st x ∨ InOOO st x → x.1 ∈ st.refs
  minTime_le : st.minTime ≤ maxInt64

/-- After the check of a series, what it has is not below the least times that were seen. -/
structure Checked (st : State) : Prop where
  actualMint_le : st.compaction.actualMint ≤ maxInt64
  inOrder : ∀ x, InHead st x →
    x.1 ∈ st.compaction.todo ∨ x ∈ st.compaction.late ∨ st.compaction.actualMint ≤ x.2

/-- The same as `Checked.inOrder`, for out-of-order samples. -/
def CheckedOOO (st : State) : Prop :=
  ∀ x, InOOO st x → x.1 ∈ st.compaction.todo ∨ x ∈ st.compaction.lateOOO ∨
    st.compaction.minOOOTime ≤ x.2

/-- What holds before each step of the compaction. -/
def AtPC (st : State) : Prop :=
  match st.compaction.pc with
  | .idle | .check | .storeMinTime | .clearInProcess => True
  | .reload => ∀ x ∈ st.committed, x.2 < st.compaction.mint →
    st.compaction.block.Has x ∨ InBlocks st.blocks x
  | .publish | .setInProcess | .loadMinTime | .startGC => st.minTime ≤ st.compaction.mint
  | .wait => st.compaction.waitMint ≤ st.compaction.mint
  | .gc => st.compaction.gcMint ≤ st.compaction.mint ∧ Checked st ∧ CheckedOOO st
  | .advance => st.compaction.todo = [] ∧ Checked st ∧ CheckedOOO st
  | .storeAdvanced => st.compaction.todo = [] ∧ st.compaction.newMint ≤ maxInt64 ∧
    (∀ x, InHead st x → x ∈ st.compaction.late ∨ st.compaction.newMint ≤ x.2) ∧ CheckedOOO st
  | .storeMinOOOTime => st.compaction.todo = [] ∧ CheckedOOO st

/-- What the flags say about the step of the compaction, and what that step relies on. -/
structure CompactionInv (st : State) : Prop where
  inProcess : st.memTruncationInProcess = st.compaction.pc.inProcess
  published : st.compaction.pc.published → st.lastMemoryTruncationTime = st.compaction.mint
  mint_le : st.compaction.pc ≠ .idle → st.compaction.mint ≤ maxInt64
  /-- The blocks have all samples before the truncation. -/
  loaded : st.compaction.pc.truncating → ∀ x ∈ st.committed, x.2 < st.compaction.mint →
    InBlocks st.blocks x
  atPC : AtPC st

namespace CompactionInv

variable (h : CompactionInv st)
include h

lemma waitMint_le (hpc : st.compaction.pc = .wait) :
    st.compaction.waitMint ≤ st.compaction.mint := by
  simpa only [AtPC, hpc] using h.atPC

lemma gcMint_le (hpc : st.compaction.pc = .gc) : st.compaction.gcMint ≤ st.compaction.mint := by
  have hat := h.atPC
  simp only [AtPC, hpc] at hat
  exact hat.1

lemma advanced (hpc : st.compaction.pc = .storeAdvanced) (hx : InHead st x) :
    x ∈ st.compaction.late ∨ st.compaction.newMint ≤ x.2 := by
  have hat := h.atPC
  simp only [AtPC, hpc] at hat
  exact hat.2.2.1 x hx

end CompactionInv

/-- A sample that a querier needs from the head. -/
structure Needs (st : State) (q : Querier) (x : Sample) : Prop where
  inHead : InHead st x
  minTime_le : st.minTime ≤ x.2
  /-- The truncation cannot remove it: it was in the blocks otherwise, or has been waited for. -/
  mint_le : q.locked ∧ st.compaction.pc.truncating ∨ st.compaction.pc.waited →
    st.compaction.mint ≤ x.2
  waitMint_le : st.compaction.pc = .wait → st.compaction.waitMint ≤ x.2

namespace Querier

/-- The reader of the head has the sample in its range, and this range is registered. -/
structure Opened (q : Querier) (x : Sample) : Prop where
  headQuerier : q.headQuerier
  inoMint_le : q.inoMint ≤ x.2
  index_le : q.index ≤ x.2
  registered : ∃ r ∈ q.reads, r.1 ≤ x.2 ∧ x.2 ≤ r.2

/-- The same reader, with the same ranges or more. -/
lemma Opened.of_eq {q' : Querier} (h : q.Opened x) (hhead : q'.headQuerier = q.headQuerier)
    (hino : q'.inoMint = q.inoMint) (hindex : q'.index = q.index) (hreads : q.reads ⊆ q'.reads) :
    q'.Opened x where
  headQuerier := hhead ▸ h.headQuerier
  inoMint_le := hino ▸ h.inoMint_le
  index_le := hindex ▸ h.index_le
  registered := h.registered.imp fun _ hr => ⟨hreads hr.1, hr.2⟩

variable (q : Querier)

/-- What a querier has done for a sample that it needs from the head. -/
def Prepared (lastMemoryTruncationTime : ℤ) (x : Sample) : Prop :=
  match q.pc with
  | .loadMinOOOTime | .loadMaxOOOTime | .loadInoMint => True
  | .testMinTime | .openIndex => q.inoMint ≤ x.2
  | .openChunks => q.inoMint ≤ x.2 ∧ q.index ≤ x.2
  | .loadTruncationTime => q.Opened x ∧ lastMemoryTruncationTime ≤ x.2
  | .closeReader none => False
  | .closeReader (some newMint) | .openNewIndex newMint => newMint ≤ x.2
  | .openNewChunks newMint => newMint ≤ x.2 ∧ q.index ≤ x.2
  | .loadInProcess | .finish | .inUse => q.Opened x
  | .closed => True

/-- What it has done for an out-of-order sample. -/
def PreparedOOO (x : Sample) : Prop :=
  match q.pc with
  | .loadMinOOOTime => True
  | .loadMaxOOOTime => q.minOOOTime ≤ x.2
  | .inUse => q.wrapped
  | .closed => True
  | _ => q.overlapsOOO

/-- The querier has seen the flag, and has not opened a new reader yet. -/
def sawInProcess : Bool :=
  match q.pc with
  | .loadTruncationTime | .closeReader _ | .openNewIndex _ | .openNewChunks _ => true
  | _ => false

/-- The lower end for a new reader. -/
def newMint? : Option ℤ :=
  match q.pc with
  | .closeReader newMint => newMint
  | .openNewIndex newMint | .openNewChunks newMint => some newMint
  | _ => none

/-- What is registered until the question, and the lower ends of what is read from the head. -/
def Bounded : Prop :=
  match q.pc with
  | .loadMinOOOTime | .loadMaxOOOTime | .loadInoMint => q.headQuerier = false ∧ q.reads = []
  | .testMinTime | .openIndex => q.headQuerier = false ∧ q.reads = [] ∧ q.mint ≤ q.inoMint
  | .openChunks => q.reads = [] ∧ q.mint ≤ q.inoMint ∧ q.mint ≤ q.index
  | .loadInProcess | .loadTruncationTime =>
    q.mint ≤ q.inoMint ∧ q.mint ≤ q.index ∧ q.reads = [(q.mint, q.maxt)]
  | .openNewChunks newMint => newMint ≤ q.index
  | _ => True

end Querier

attribute [local simp] Querier.next Prepared PreparedOOO sawInProcess newMint? Bounded readsHead

/-- A reader that was kept or opened after the question is registered, and apart from a truncation
that does not wait any more. -/
structure Apart (st : State) (q : Querier) : Prop where
  registered : ∃ r ∈ q.reads, r.1 ≤ q.index ∧ r.1 ≤ q.inoMint ∧ r.2 = q.maxt
  apart : st.compaction.pc.waited → q.maxt < st.compaction.waitMint ∨
    st.compaction.mint ≤ q.index ∧ st.compaction.mint ≤ q.inoMint

/-- What a querier that is being built or in use may rely on. -/
structure QuerierInv (st : State) (q : Querier) : Prop where
  needs : ∀ x ∈ q.committed, q.Asks x → ¬InBlocks q.blocks x → q.pc ≠ .closed → Needs st q x
  prepared : ∀ x ∈ q.committed, q.Asks x → ¬InBlocks q.blocks x →
    q.Prepared st.lastMemoryTruncationTime x
  storedOOO : ∀ x ∈ q.committedOOO, InOOO st x
  preparedOOO : ∀ x ∈ q.committedOOO, q.Asks x → q.PreparedOOO x
  settled : q.sawInProcess → st.compaction.pc ∉ [.check, .publish, .setInProcess]
  newMint : ∀ newMint, q.newMint? = some newMint → newMint = st.lastMemoryTruncationTime
  bounded : q.Bounded
  apart : q.pc = .finish ∨ q.pc = .inUse → q.headQuerier → Apart st q

/-- Every step of the head, of the compaction and of a querier keeps this. -/
structure Inv (st : State) : Prop where
  head : HeadInv st
  compaction : CompactionInv st
  queriers : ∀ q ∈ st.queriers, QuerierInv st q

/-! ### What follows from the invariant -/

lemma Inv.allReached (h : Inv st) : AllReached st := by
  intro q hq hpc
  have hinv := h.queriers q hq
  refine ⟨fun x hx hasks => ?_, fun x hx hasks => ?_⟩
  · by_cases hblocks : InBlocks q.blocks x
    · exact .inl hblocks
    · have hneeds := hinv.needs x hx hasks hblocks (by simp [hpc])
      have hopened : q.Opened x := by simpa [Prepared, hpc] using hinv.prepared x hx hasks hblocks
      refine .inr ⟨by simp [hopened.headQuerier], hneeds.inHead, ?_⟩
      unfold headMint
      split_ifs
      · exact hopened.inoMint_le
      · exact hopened.index_le
  · have hwrapped := hinv.preparedOOO x hx hasks
    exact ⟨by simpa [hpc] using hwrapped, hinv.storedOOO x hx⟩

/-- A reader that is apart does not overlap. -/
lemma Apart.not_overlapsTruncation (h : Apart st q) (hwaited : st.compaction.pc.waited) :
    ¬OverlapsTruncation st q := by
  rintro ⟨hlt, hle⟩
  obtain hmaxt | ⟨hindex, hino⟩ := h.apart hwaited
  · omega
  · unfold headMint at hlt
    split_ifs at hlt <;> omega

lemma Inv.protected_iff (h : Inv st) (a : State.Action) : Protected st a ↔ NoneCollided st a := by
  constructor
  · intro hprot hremoves q hq hpc hwrapped _
    exact hprot hremoves q hq hpc (by simp [hwrapped])
  · intro hnone hremoves q hq hpc hreads
    cases hhead : q.headQuerier with
    | true =>
      have hgc : st.compaction.pc = .gc := by
        cases a <;> first | exact hremoves.elim | exact hremoves.1
      exact ((h.queriers q hq).apart (.inr hpc) hhead).not_overlapsTruncation (by rw [hgc]; rfl)
    | false => exact hnone hremoves q hq hpc (by simpa [hhead] using hreads) hhead

/-! ### Steps of a querier -/

lemma Needs.of_locked (h : Needs st q x) (hlocked : q.locked) : Needs st q' x where
  __ := h
  mint_le hor := h.mint_le (hor.imp_left fun hand => ⟨hlocked, hand.2⟩)

/-- The arguments of the call, and what was there before it. -/
structure SameCall (q q' : Querier) : Prop where
  mint : q'.mint = q.mint
  maxt : q'.maxt = q.maxt
  blocks : q'.blocks = q.blocks
  committed : q'.committed = q.committed
  committedOOO : q'.committedOOO = q.committedOOO

lemma SameCall.asks (h : SameCall q q') : q'.Asks x ↔ q.Asks x := by
  rw [Asks, Asks, h.mint, h.maxt]

lemma QuerierInv.of_next (h : QuerierInv st q) (hlocked : q.locked)
    (hprep : ∀ x, Needs st q x → q.Asks x → q.Prepared st.lastMemoryTruncationTime x →
      q'.Prepared st.lastMemoryTruncationTime x)
    (hprepOOO : ∀ x, InOOO st x → q.Asks x → q.PreparedOOO x → q'.PreparedOOO x)
    (hbounded : q'.Bounded)
    (hapart : q'.pc = .finish ∨ q'.pc = .inUse → q'.headQuerier → Apart st q' := by simp)
    (hsettled : q'.sawInProcess → st.compaction.pc ∉ [.check, .publish, .setInProcess] := by
      simp [sawInProcess])
    (hnew : ∀ newMint, q'.newMint? = some newMint → newMint = st.lastMemoryTruncationTime := by
      simp [newMint?])
    (hsame : SameCall q q' := by exact ⟨rfl, rfl, rfl, rfl, rfl⟩) : QuerierInv st q' := by
  have hclosed : q.pc ≠ .closed := by
    rintro hpc
    simp [locked, hpc] at hlocked
  refine ⟨fun x hx hasks hblocks _ => ?_, fun x hx hasks hblocks => ?_, fun x hx => ?_,
    fun x hx hasks => ?_, hsettled, hnew, hbounded, hapart⟩
  · rw [hsame.committed] at hx
    rw [hsame.blocks] at hblocks
    exact (h.needs x hx (hsame.asks.1 hasks) hblocks hclosed).of_locked hlocked
  · rw [hsame.committed] at hx
    rw [hsame.blocks] at hblocks
    have hasks := hsame.asks.1 hasks
    exact hprep x (h.needs x hx hasks hblocks hclosed) hasks (h.prepared x hx hasks hblocks)
  · exact h.storedOOO x (hsame.committedOOO ▸ hx)
  · rw [hsame.committedOOO] at hx
    have hasks := hsame.asks.1 hasks
    exact hprepOOO x (h.storedOOO x hx) hasks (h.preparedOOO x hx hasks)

namespace QuerierInv

section

variable (h : QuerierInv st q)
include h

section

variable (hlocked : q.locked) (hnext : q.next st = some q')
include hlocked hnext

/-- The steps up to the opening of the reader. -/
lemma next_of_before (hhead : HeadInv st)
    (hpc : q.pc ∈ [.loadMinOOOTime, .loadMaxOOOTime, .loadInoMint, .testMinTime, .openIndex]) :
    QuerierInv st q' := by
  have hbounded := h.bounded
  simp only [mem_cons, not_mem_nil, or_false] at hpc
  obtain hpc | hpc | hpc | hpc | hpc := hpc
  all_goals
    simp only [Querier.next, hpc, some.injEq] at hnext
    simp only [Bounded, hpc] at hbounded
    subst hnext
  · exact h.of_next hlocked (fun _ _ _ _ => trivial) (fun x hooo _ _ => (hhead.bounds x hooo).1)
      hbounded
  · refine h.of_next hlocked (fun _ _ _ _ => trivial) ?_ hbounded
    rintro x hooo ⟨hmint, hmaxt⟩ hprep
    simp only [PreparedOOO, hpc] at hprep
    have hbounds := hhead.bounds x hooo
    simp only [PreparedOOO, overlapsClosedInterval, Bool.and_eq_true, decide_eq_true_eq]
    omega
  · refine h.of_next hlocked (fun x hneeds hasks _ => max_le hneeds.minTime_le hasks.1) ?_
      ⟨hbounded.1, hbounded.2, le_max_right _ _⟩
    simp [hpc]
  · by_cases hopen : q.maxt ≥ st.minTime ∨ q.overlapsOOO
    · rw [if_pos hopen]
      refine h.of_next hlocked ?_ ?_ hbounded
      · simp [Prepared, hpc]
      · simp [hpc]
    · -- The head has nothing in the range: neither in order nor out of order.
      rw [if_neg hopen]
      refine h.of_next hlocked (fun x hneeds hasks _ => ?_) ?_ trivial
        (fun _ hreader => by simp [hbounded.1] at hreader)
      · exact absurd (hneeds.minTime_le.trans hasks.2) fun hle => hopen (.inl hle)
      · simp [hpc]
  · refine h.of_next hlocked (fun x hneeds hasks hprep => ?_) ?_
      ⟨hbounded.2.1, hbounded.2.2, le_max_left _ _⟩
    · simp only [Prepared, hpc] at hprep
      exact ⟨hprep, max_le hasks.1 hneeds.minTime_le⟩
    · simp [hpc]

lemma next_openChunks (hpc : q.pc = .openChunks) : QuerierInv st q' := by
  have hbounded := h.bounded
  simp only [Querier.next, hpc, some.injEq] at hnext
  simp only [Bounded, hpc] at hbounded
  subst hnext
  refine h.of_next hlocked (fun x _ hasks hprep => ?_) ?_
    ⟨hbounded.2.1, hbounded.2.2, by simp [hbounded.1]⟩
  · simp only [Prepared, hpc] at hprep
    exact ⟨rfl, hprep.1, hprep.2, (q.mint, q.maxt), mem_cons_self, hasks⟩
  · simp [hpc]

/-- The first load of the question: the flag. -/
lemma next_loadInProcess (hcomp : CompactionInv st) (hpc : q.pc = .loadInProcess) :
    QuerierInv st q' := by
  have hbounded := h.bounded
  simp only [Querier.next, hpc, some.injEq] at hnext
  simp only [Bounded, hpc] at hbounded
  obtain ⟨hino, hindex, hreads⟩ := hbounded
  subst hnext
  cases hflag : st.memTruncationInProcess with
  | true =>
    have hin : st.compaction.pc.inProcess := hcomp.inProcess ▸ hflag
    refine h.of_next hlocked (fun x hneeds _ hprep => ?_) ?_ ⟨hino, hindex, hreads⟩ (by simp)
      (fun _ => ?_)
    · simp only [Prepared, hpc] at hprep
      refine ⟨hprep.of_eq rfl rfl rfl fun _ => id, ?_⟩
      rw [hcomp.published (published_of_inProcess hin)]
      exact hneeds.mint_le (.inl ⟨hlocked, truncating_of_inProcess hin⟩)
    · simp [hpc]
    · intro hmem
      simp only [mem_cons, not_mem_nil, or_false] at hmem
      obtain hst | hst | hst := hmem <;> simp [hst, inProcess] at hin
  | false =>
    refine h.of_next hlocked (fun x _ _ hprep => ?_) ?_ trivial (fun _ _ => ⟨?_, fun hwaited => ?_⟩)
    · simp only [Prepared, hpc] at hprep
      exact hprep.of_eq rfl rfl rfl fun _ => id
    · simp [hpc]
    · exact ⟨(q.mint, q.maxt), by simp [hreads], hindex, hino, rfl⟩
    -- A truncation that starts now will wait for the reader.
    have hin := inProcess_of_waited hwaited
    rw [← hcomp.inProcess, hflag] at hin
    exact nomatch hin

/-- The second load of the question: the time of the truncation. -/
lemma next_loadTruncationTime (hcomp : CompactionInv st) (hpc : q.pc = .loadTruncationTime) :
    QuerierInv st q' := by
  have hbounded := h.bounded
  have hsettled := h.settled (by simp [hpc])
  simp only [Querier.next, hpc] at hnext
  simp only [Bounded, hpc] at hbounded
  obtain ⟨hino, hindex, hreads⟩ := hbounded
  split_ifs at hnext with hmaxt hmint
  · -- All samples in the range that are not in the blocks were at or after the truncation.
    cases hnext
    refine h.of_next hlocked (fun x _ hasks hprep => ?_) ?_ trivial (by simp) (fun _ => hsettled)
    · simp only [Prepared, hpc] at hprep
      have := hasks.2
      exact absurd hprep.2 (by omega)
    · simp [hpc]
  · cases hnext
    refine h.of_next hlocked (fun x _ _ hprep => ?_) ?_ trivial (by simp) (fun _ => hsettled)
    · simp only [Prepared, hpc] at hprep
      exact hprep.2
    · simp [hpc]
  · cases hnext
    refine h.of_next hlocked (fun x _ _ hprep => ?_) ?_ trivial
      (fun _ _ => ⟨?_, fun hwaited => .inr ?_⟩)
    · simp only [Prepared, hpc] at hprep
      exact hprep.1.of_eq rfl rfl rfl fun _ => id
    · simp [hpc]
    · exact ⟨(q.mint, q.maxt), by simp [hreads], hindex, hino, rfl⟩
    · have hlast := hcomp.published (published_of_inProcess (inProcess_of_waited hwaited))
      dsimp only
      omega

/-- The reader is closed, and there may be a new one. -/
lemma next_closeReader {newMint : Option ℤ} (hpc : q.pc = .closeReader newMint) :
    QuerierInv st q' := by
  have hsettled := h.settled (by simp [hpc])
  simp only [Querier.next, hpc, some.injEq] at hnext
  subst hnext
  cases newMint with
  | none =>
    refine h.of_next hlocked (fun x _ _ hprep => ?_) ?_ trivial (by simp) (by simp) (by simp)
      ⟨rfl, rfl, rfl, rfl, rfl⟩
    · simp only [Prepared, hpc] at hprep
    · simp [hpc]
  | some newMint =>
    refine h.of_next hlocked (fun x _ _ hprep => ?_) ?_ trivial (by simp) (fun _ => hsettled)
      (fun n hn => h.newMint n ?_) ⟨rfl, rfl, rfl, rfl, rfl⟩
    · simpa only [Prepared, hpc] using hprep
    · simp [hpc]
    · simpa [hpc] using hn

lemma next_openNewIndex {newMint : ℤ} (hpc : q.pc = .openNewIndex newMint) : QuerierInv st q' := by
  have hsettled := h.settled (by simp [hpc])
  simp only [Querier.next, hpc, some.injEq] at hnext
  subst hnext
  refine h.of_next hlocked (fun x hneeds _ hprep => ?_) ?_ (le_max_left _ _) (by simp)
    (fun _ => hsettled) (fun n hn => h.newMint n ?_) ⟨rfl, rfl, rfl, rfl, rfl⟩
  · simp only [Prepared, hpc] at hprep
    exact ⟨hprep, max_le hprep hneeds.minTime_le⟩
  · simp [hpc]
  · simpa [hpc] using hn

lemma next_openNewChunks {newMint : ℤ}
    (hcomp : CompactionInv st) (hpc : q.pc = .openNewChunks newMint) : QuerierInv st q' := by
  have hbounded := h.bounded
  have hlast := h.newMint newMint (by simp [hpc])
  simp only [Querier.next, hpc, some.injEq] at hnext
  simp only [Bounded, hpc] at hbounded
  subst hnext
  refine h.of_next hlocked (fun x _ hasks hprep => ?_) ?_ trivial
    (fun _ _ => ⟨⟨_, mem_cons_self, hbounded, le_rfl, rfl⟩, fun hwaited => .inr ?_⟩)
    (by simp) (by simp) ⟨rfl, rfl, rfl, rfl, rfl⟩
  · simp only [Prepared, hpc] at hprep
    exact ⟨rfl, hprep.1, hprep.2, _, mem_cons_self, hprep.1, hasks.2⟩
  · simp [hpc]
  · -- The new reader begins at the time of the truncation.
    have hpub := hcomp.published (published_of_inProcess (inProcess_of_waited hwaited))
    dsimp only
    omega

/-- The querier is returned, with a reader for the out-of-order samples if there are some. -/
lemma next_finish (hpc : q.pc = .finish) : QuerierInv st q' := by
  have hapart := h.apart (.inl hpc)
  simp only [Querier.next, hpc] at hnext
  split_ifs at hnext with hooo
  · cases hnext
    refine h.of_next hlocked (fun x _ _ hprep => ?_) (fun _ _ _ _ => rfl) trivial
      (fun _ hreader => ?_) (by simp) (by simp) ⟨rfl, rfl, rfl, rfl, rfl⟩
    · simp only [Prepared, hpc] at hprep
      exact hprep.of_eq rfl rfl rfl (subset_cons_self _ _)
    · obtain ⟨⟨r, hr, hle⟩, hapart⟩ := hapart hreader
      exact ⟨⟨r, mem_cons_of_mem _ hr, hle⟩, hapart⟩
  cases hnext
  refine h.of_next hlocked (fun x _ _ hprep => ?_) (fun x _ _ hprep => ?_) trivial
    (fun _ hreader => ?_) (by simp) (by simp) ⟨rfl, rfl, rfl, rfl, rfl⟩
  · simp only [Prepared, hpc] at hprep
    exact hprep.of_eq rfl rfl rfl fun _ => id
  · simp only [PreparedOOO, hpc] at hprep
    exact absurd hprep hooo
  · obtain ⟨hregistered, hapart⟩ := hapart hreader
    exact ⟨hregistered, hapart⟩

end

lemma next (hhead : HeadInv st) (hcomp : CompactionInv st)
    (hnext : q.next st = some q') : QuerierInv st q' := by
  have hlocked : q.locked := by
    cases hpc : q.pc <;> simp_all [Querier.next, Querier.locked]
  cases hpc : q.pc with
  | loadMinOOOTime | loadMaxOOOTime | loadInoMint | testMinTime | openIndex =>
    exact h.next_of_before hlocked hnext hhead (by simp [hpc])
  | openChunks => exact h.next_openChunks hlocked hnext hpc
  | loadInProcess => exact h.next_loadInProcess hlocked hnext hcomp hpc
  | loadTruncationTime => exact h.next_loadTruncationTime hlocked hnext hcomp hpc
  | closeReader newMint => exact h.next_closeReader hlocked hnext hpc
  | openNewIndex newMint => exact h.next_openNewIndex hlocked hnext hpc
  | openNewChunks newMint => exact h.next_openNewChunks hlocked hnext hcomp hpc
  | finish => exact h.next_finish hlocked hnext hpc
  | inUse | closed => simp [Querier.next, hpc] at hnext

lemma close (hclose : q.close = some q') : QuerierInv st q' := by
  unfold Querier.close at hclose
  split_ifs at hclose with hpc
  cases hclose
  exact ⟨fun _ _ _ _ hclosed => absurd rfl hclosed, fun _ _ _ _ => trivial, h.storedOOO,
    fun _ _ _ => trivial, by simp, by simp, trivial,
    by simp⟩

end

/-- A new call. What is not in the blocks is in the head, and is not before the time of a
truncation. -/
lemma querier (hhead : HeadInv st) (hcomp : CompactionInv st) (mint maxt : ℤ) :
    QuerierInv st (st.querier mint maxt) := by
  refine ⟨fun x hx hasks hblocks _ => ?_, fun _ _ _ _ => trivial, hhead.storedOOO,
    fun _ _ _ => trivial, by simp [sawInProcess, State.querier],
    by simp [newMint?, State.querier], ⟨rfl, rfl⟩, by simp [State.querier]⟩
  have hnot : ¬InBlocks st.blocks x := by
    rintro ⟨b, hb, hhas⟩
    refine hblocks ⟨b, mem_filter.2 ⟨hb, ?_⟩, hhas⟩
    have hwithin := b.within x.1 x.2 hhas
    obtain ⟨hmint, hmaxt⟩ := hasks
    simp only [State.querier] at hmint hmaxt
    simp only [Block.overlapsClosedInterval, Bool.and_eq_true, decide_eq_true_eq]
    omega
  have hmint : st.compaction.pc.truncating → st.compaction.mint ≤ x.2 := by
    intro htrunc
    by_contra hlt
    exact hnot (hcomp.loaded htrunc x hx (not_le.1 hlt))
  obtain ⟨hin, hle⟩ | hin := hhead.stored x hx
  · refine ⟨hin, hle, ?_, fun hwait => ?_⟩
    · rintro (⟨-, htrunc⟩ | hwaited)
      · exact hmint htrunc
      · exact hmint (truncating_of_inProcess (inProcess_of_waited hwaited))
    · exact (hcomp.waitMint_le hwait).trans (hmint (by rw [hwait]; rfl))
  · exact absurd hin hnot

end QuerierInv

end Prometheus.Tsdb.MemoryTruncation
