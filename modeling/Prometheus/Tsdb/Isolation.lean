import Prometheus.Lib.LinkedList
import Prometheus.Tsdb.TxRing

/-!
# The isolation of reads from appends

`isolation` of `tsdb/isolation.go`. Appends get increasing IDs, and a read must not see the samples
of an append that was open when the read began, or that began later. A series can forget the append
IDs below the low watermark: no read, open now or opened later, hides one of them.

Open appends and open reads are in two linked lists. The sentinel of the list of appends has the
last append ID, so that `appendsOpenList.next.appendID` is the ID of the oldest open append, or the
last ID if there is none. A read notes that number when it is opened. The low watermark is what the
oldest open read has noted, or the number itself if there is no read.

The abstract model `Opens` has lists of what is open, without memory. The linked lists refine it
(`Refines`), and the watermarks are those of the abstract model, where they increase
(`Opens.Inv.watermark_le_step`) and bound what the reads hide (`Opens.Inv.watermark_le`).

Every operation is atomic: it holds the mutexes it needs from its beginning to its end. Append IDs
are natural numbers; the code's would overflow after `2 ^ 64` appends.
-/

namespace Prometheus.Tsdb

open LinkedList

/-! ### The model -/

/-- What an `isolationAppender` holds besides its links. -/
structure AppendInfo where
  appendID : ℕ
  minTime : ℤ

/-- What an `isolationState` holds besides its links. -/
structure ReadInfo where
  maxAppendID : ℕ
  incompleteAppends : Finset ℕ
  /-- Lowest of `incompleteAppends` and `maxAppendID`. -/
  lowWatermark : ℕ
  mint : ℤ
  maxt : ℤ

/-- The append IDs that a read must not see. -/
def ReadInfo.Hides (r : ReadInfo) (appendID : ℕ) : Prop :=
  appendID ∈ r.incompleteAppends ∨ r.maxAppendID < appendID

/-- The global isolation state. Addresses are numbers, and `0` is the `nil` pointer. `appenders` and
`states` are the memory with the nodes of the two lists; the addresses from `appendersEnd` and
`statesEnd` on have not been allocated yet. -/
structure Isolation where
  appenders : ℕ → Cell ℕ AppendInfo
  appendersEnd : ℕ
  /-- Which appends are currently in progress. -/
  appendsOpen : AList fun _ : ℕ => ℕ
  /-- New appenders with higher appendID are added to the end. First element keeps lastAppendId. -/
  appendsOpenList : ℕ
  /-- Pool of reusable appenders to save on allocations. -/
  appendersPool : List ℕ
  states : ℕ → Cell ℕ ReadInfo
  statesEnd : ℕ
  /-- All current in use isolation states. -/
  readsOpen : ℕ
  /-- If true, writes are not tracked while reads are still tracked. -/
  disabled : Bool

namespace Isolation

/-- The zero value of an `isolationAppender`. -/
def noAppender : Cell ℕ AppendInfo := ⟨⟨0, 0⟩, 0, 0⟩

/-- The zero value of an `isolationState`. -/
def noState : Cell ℕ ReadInfo := ⟨⟨0, ∅, 0, 0, 0⟩, 0, 0⟩

/-- The two sentinels are at address 1, and linked to themselves. -/
def newIsolation (disabled : Bool) : Isolation where
  appenders := Function.update (fun _ => noAppender) 1 ⟨⟨0, 0⟩, 1, 1⟩
  appendersEnd := 2
  appendsOpen := ∅
  appendsOpenList := 1
  appendersPool := []
  states := Function.update (fun _ => noState) 1 ⟨⟨0, ∅, 0, 0, 0⟩, 1, 1⟩
  statesEnd := 2
  readsOpen := 1
  disabled := disabled

variable (i : Isolation)

/-- `lowWatermark` and `lowWatermarkLocked`. -/
def lowWatermark : ℕ :=
  if i.disabled then 0
  else if (i.states i.readsOpen).prev ≠ i.readsOpen then
    (i.states (i.states i.readsOpen).prev).data.lowWatermark
  else
    -- Lowest appendID from appenders, or lastAppendId.
    (i.appenders (i.appenders i.appendsOpenList).next).data.appendID

/-- `State`: the address of the isolation state it returns. -/
def state (mint maxt : ℤ) : ℕ × Isolation :=
  let isoState : ReadInfo :=
    { maxAppendID := (i.appenders i.appendsOpenList).data.appendID
      lowWatermark := (i.appenders (i.appenders i.appendsOpenList).next).data.appendID
      incompleteAppends := i.appendsOpen.keys.toFinset
      mint := mint
      maxt := maxt }
  (i.statesEnd, { i with
    states := link i.states i.statesEnd isoState i.readsOpen (i.states i.readsOpen).next
    statesEnd := i.statesEnd + 1 })

/-- `isolationState.Close`, for the isolation state at an address. -/
def close (isoState : ℕ) : Isolation :=
  { i with states := unlink i.states isoState }

/-- `appendersPool.Get`: an appender from the pool, or a new one. A `sync.Pool` does not say which.
-/
def getAppender (pick : Option ℕ) : ℕ × Isolation :=
  match pick.filter (· ∈ i.appendersPool) with
  | some app => (app, { i with appendersPool := i.appendersPool.erase app })
  | none => (i.appendersEnd, { i with
      appenders := Function.update i.appenders i.appendersEnd noAppender
      appendersEnd := i.appendersEnd + 1 })

/-- Last used appendID is stored in head element. -/
def countAppend : Isolation :=
  let head := (i.appenders i.appendsOpenList).data
  { i with
    appenders := setData i.appenders i.appendsOpenList { head with appendID := head.appendID + 1 } }

/-- `newAppendID`: the append ID and the low watermark. -/
def newAppendID (minTime : ℤ) (pick : Option ℕ) : (ℕ × ℕ) × Isolation :=
  if i.disabled then ((0, 0), i)
  else
    let i := i.countAppend
    let appendID := (i.appenders i.appendsOpenList).data.appendID
    let (app, i) := i.getAppender pick
    let i := { i with
      appenders := link i.appenders app ⟨appendID, minTime⟩ (i.appenders i.appendsOpenList).prev
        i.appendsOpenList
      appendsOpen := i.appendsOpen.insert appendID app }
    ((appendID, i.lowWatermark), i)

def closeAppend (appendID : ℕ) : Isolation :=
  if i.disabled then i
  else
    match i.appendsOpen.lookup appendID with
    | none => i
    | some app =>
      { i with
        -- Clear all fields, and return to the pool.
        appenders := Function.update (unlink i.appenders app) app noAppender
        appendsOpen := i.appendsOpen.erase appendID
        appendersPool := app :: i.appendersPool }

/-- The calls of appenders and readers. -/
inductive Call
  | newAppendID (minTime : ℤ) (pick : Option ℕ)
  | closeAppend (appendID : ℕ)
  | state (mint maxt : ℤ)
  | close (isoState : ℕ)
  | lowWatermark

/-- The isolation, and the isolation states that readers hold: those they got from `State` and have
not closed. -/
structure System where
  iso : Isolation
  held : List ℕ

/-- One call, and the low watermark that it returns. A reader closes an isolation state that it
holds; there is no other call of `Close`. -/
def System.call (s : System) : Call → Option (System × Option ℕ)
  | .newAppendID minTime pick =>
    let ((_, watermark), iso) := s.iso.newAppendID minTime pick
    some ({ s with iso := iso }, some watermark)
  | .closeAppend appendID => some ({ s with iso := s.iso.closeAppend appendID }, none)
  | .state mint maxt =>
    let (isoState, iso) := s.iso.state mint maxt
    some (⟨iso, isoState :: s.held⟩, none)
  | .close isoState =>
    if isoState ∈ s.held then some (⟨s.iso.close isoState, s.held.erase isoState⟩, none) else none
  | .lowWatermark => some (s, some s.iso.lowWatermark)

/-- The next call of an interleaving, with the low watermarks returned so far. -/
def next (s : System × List ℕ) (c : Call) : Option (System × List ℕ) :=
  (s.1.call c).map fun (s', watermark) => (s', s.2 ++ watermark.toList)

/-- An interleaving of calls, and all low watermarks that they return. -/
def run (disabled : Bool) (calls : List Call) : Option (System × List ℕ) :=
  calls.foldlM next (⟨newIsolation disabled, []⟩, [])

end Isolation

open List Function Option

/-! ### What is open -/

/-- The open appends, the oldest one first, and the open reads, the newest one first. Reads are
named in the order in which they are opened. -/
structure Opens where
  last : ℕ
  appends : List ℕ
  nextRead : ℕ
  reads : List (ℕ × ReadInfo)
  disabled : Bool

variable {appendID : ℕ} {r : ℕ × ReadInfo}

namespace Opens

open Isolation (Call)

def empty (disabled : Bool) : Opens := ⟨0, [], 2, [], disabled⟩

variable (σ : Opens)

/-- The oldest open append, or the last one if none is open. -/
def oldest : ℕ :=
  σ.appends.headD σ.last

def watermark : ℕ :=
  if σ.disabled then 0 else (σ.reads.getLast?.map fun r => r.2.lowWatermark).getD σ.oldest

/-- A read opened now. -/
def newRead (mint maxt : ℤ) : ReadInfo :=
  ⟨σ.last, σ.appends.toFinset, σ.oldest, mint, maxt⟩

def step : Call → Opens
  | .newAppendID _ _ =>
    if σ.disabled then σ else { σ with last := σ.last + 1, appends := σ.appends ++ [σ.last + 1] }
  | .closeAppend appendID =>
    if σ.disabled then σ else { σ with appends := σ.appends.erase appendID }
  | .state mint maxt =>
    { σ with nextRead := σ.nextRead + 1, reads := (σ.nextRead, σ.newRead mint maxt) :: σ.reads }
  | .close isoState => { σ with reads := σ.reads.eraseP fun r => r.1 == isoState }
  | .lowWatermark => σ

/-- Appends have increasing IDs up to the last one. What a read has noted bounds what it hides, and
older reads have not noted more than newer ones. -/
structure Inv (σ : Opens) : Prop where
  sorted : σ.appends.Pairwise (· < ·)
  le_last : ∀ a ∈ σ.appends, a ≤ σ.last
  noted_le : ∀ r ∈ σ.reads, r.2.lowWatermark ≤ σ.oldest
  noted_le_hidden : ∀ r ∈ σ.reads, ∀ appendID, r.2.Hides appendID → r.2.lowWatermark ≤ appendID
  reads_sorted : σ.reads.Pairwise fun r r' => r'.2.lowWatermark ≤ r.2.lowWatermark

lemma inv_empty (disabled : Bool) : (empty disabled).Inv := by
  constructor <;> simp [empty]

namespace Inv

variable {σ : Opens}

section

variable (h : σ.Inv)
include h

lemma oldest_le {a : ℕ} (ha : a ∈ σ.appends) : σ.oldest ≤ a := by
  have hsorted := h.sorted
  unfold oldest
  cases hcase : σ.appends with
  | nil => simp [hcase] at ha
  | cons b bs =>
    rw [hcase] at ha hsorted
    rcases mem_cons.1 ha with rfl | hmem
    · exact le_rfl
    · exact ((pairwise_cons.1 hsorted).1 a hmem).le

lemma oldest_le_last : σ.oldest ≤ σ.last := by
  unfold oldest
  cases hcase : σ.appends with
  | nil => exact le_rfl
  | cons b bs => exact h.le_last b (by simp [hcase])

/-- A new read hides what is open now, and what comes later. -/
lemma oldest_le_newRead (mint maxt : ℤ)
    (hid : (σ.newRead mint maxt).Hides appendID) : σ.oldest ≤ appendID := by
  rcases hid with hopen | hlater
  · exact h.oldest_le (List.mem_toFinset.1 hopen)
  · exact h.oldest_le_last.trans hlater.le

/-- The oldest open append is never followed by an older one: appends are closed in any order, but
new ones are the newest. -/
lemma oldest_le_step (c : Call) : σ.oldest ≤ (σ.step c).oldest := by
  cases c with
  | newAppendID minTime pick =>
    unfold step
    split_ifs
    · exact le_rfl
    cases hcase : σ.appends with
    | nil => simp [oldest, hcase]
    | cons b bs => simp [oldest, hcase]
  | closeAppend appendID =>
    unfold step
    split_ifs
    · exact le_rfl
    cases hcase : σ.appends.erase appendID with
    | nil =>
      refine h.oldest_le_last.trans ?_
      simp [oldest, hcase]
    | cons b bs =>
      have hb : b ∈ σ.appends := mem_of_mem_erase (hcase ▸ mem_cons_self)
      refine (h.oldest_le hb).trans ?_
      simp [oldest, hcase]
  | state mint maxt => exact le_rfl
  | close isoState => exact le_rfl
  | lowWatermark => exact le_rfl

lemma step (c : Call) : (σ.step c).Inv := by
  have holdest := h.oldest_le_step c
  cases c with
  | newAppendID minTime pick =>
    unfold Opens.step at holdest ⊢
    split_ifs at holdest ⊢
    · exact h
    refine ⟨?_, ?_, fun r hr => (h.noted_le r hr).trans holdest, h.noted_le_hidden, h.reads_sorted⟩
    · refine pairwise_append.2 ⟨h.sorted, pairwise_singleton .., fun a ha b hb => ?_⟩
      rw [mem_singleton.1 hb]
      exact Nat.lt_succ_of_le (h.le_last a ha)
    intro a ha
    rcases mem_append.1 ha with ha | ha
    · exact (h.le_last a ha).trans (Nat.le_succ _)
    · exact (mem_singleton.1 ha).le
  | closeAppend appendID =>
    unfold Opens.step at holdest ⊢
    split_ifs at holdest ⊢
    · exact h
    · exact ⟨h.sorted.sublist erase_sublist, fun a ha => h.le_last a (mem_of_mem_erase ha),
        fun r hr => (h.noted_le r hr).trans holdest, h.noted_le_hidden, h.reads_sorted⟩
  | state mint maxt =>
    refine ⟨h.sorted, h.le_last, ?_, ?_, ?_⟩
    · rintro r hr
      rcases mem_cons.1 hr with rfl | hr
      · exact le_rfl
      · exact h.noted_le r hr
    · rintro r hr appendID hid
      rcases mem_cons.1 hr with rfl | hr
      · exact h.oldest_le_newRead mint maxt hid
      · exact h.noted_le_hidden r hr appendID hid
    · exact pairwise_cons.2 ⟨h.noted_le, h.reads_sorted⟩
  | close isoState =>
    have hsub : (σ.reads.eraseP fun r => r.1 == isoState).Sublist σ.reads := eraseP_sublist
    exact ⟨h.sorted, h.le_last, fun r hr => h.noted_le r (hsub.subset hr),
      fun r hr => h.noted_le_hidden r (hsub.subset hr), h.reads_sorted.sublist hsub⟩
  | lowWatermark => exact h

/-- The low watermark is at most what any open read has noted. -/
lemma watermark_le_noted (hr : r ∈ σ.reads) : σ.watermark ≤ r.2.lowWatermark := by
  unfold watermark
  split_ifs
  · exact Nat.zero_le _
  obtain ⟨rs, last, hrs⟩ := eq_nil_or_concat σ.reads |>.resolve_left (ne_nil_of_mem hr)
  have hsorted := h.reads_sorted
  rw [hrs, concat_eq_append] at hr hsorted ⊢
  rw [getLast?_concat]
  rcases mem_append.1 hr with hmem | hmem
  · exact (pairwise_append.1 hsorted).2.2 r hmem last (by simp)
  · rw [mem_singleton.1 hmem]
    exact le_rfl

theorem watermark_le (hr : r ∈ σ.reads) (hid : r.2.Hides appendID) : σ.watermark ≤ appendID :=
  (h.watermark_le_noted hr).trans (h.noted_le_hidden r hr appendID hid)

lemma watermark_le_oldest : σ.watermark ≤ σ.oldest := by
  unfold watermark
  split_ifs
  · exact Nat.zero_le _
  cases hlast : σ.reads.getLast? with
  | none => exact le_rfl
  | some r => exact h.noted_le r (mem_of_getLast? hlast)

end

end Inv

@[simp] lemma step_disabled (σ : Opens) (c : Call) : (σ.step c).disabled = σ.disabled := by
  cases c <;> simp only [step] <;> split_ifs <;> rfl

/-- The low watermark never decreases. After a read is closed, the oldest one left is a newer one;
and after the last read is closed, what counts is the oldest open append of now. -/
theorem Inv.watermark_le_step {σ : Opens} (h : σ.Inv) (c : Call) :
    σ.watermark ≤ (σ.step c).watermark := by
  have hstep : (σ.step c).watermark = if σ.disabled then 0 else
      ((σ.step c).reads.getLast?.map fun r => r.2.lowWatermark).getD (σ.step c).oldest := by
    rw [watermark, step_disabled]
  rw [hstep]
  split_ifs with hdisabled
  · rw [watermark, if_pos hdisabled]
  cases hlast : (σ.step c).reads.getLast? with
  | none => exact h.watermark_le_oldest.trans (h.oldest_le_step c)
  | some r =>
    have hr := mem_of_getLast? hlast
    -- the oldest read is one of before, unless it is the one just opened
    cases c with
    | state mint maxt =>
      rcases mem_cons.1 hr with rfl | hr
      · exact h.watermark_le_oldest
      · exact h.watermark_le_noted hr
    | close isoState => exact h.watermark_le_noted (mem_of_mem_eraseP hr)
    | newAppendID minTime pick =>
      have hreads : (σ.step (.newAppendID minTime pick)).reads = σ.reads := by
        rw [Opens.step, if_neg hdisabled]
      exact h.watermark_le_noted (hreads ▸ hr)
    | closeAppend appendID =>
      have hreads : (σ.step (.closeAppend appendID)).reads = σ.reads := by
        rw [Opens.step, if_neg hdisabled]
      exact h.watermark_le_noted (hreads ▸ hr)
    | lowWatermark => exact h.watermark_le_noted hr

end Opens

/-! ### The linked lists -/

variable {calls : List Call}

namespace Isolation

/-- `appendsOpenList` has the open appends, at the addresses `as`, and `appendsOpen` finds them by
their IDs. The appenders in the pool are none of them. -/
structure AppendsRefine (i : Isolation) (σ : Opens) (as : List ℕ) : Prop where
  list : Holds i.appenders i.appendsOpenList as
  ids : (as.map fun a => (i.appenders a).data.appendID) = σ.appends
  last : (i.appenders i.appendsOpenList).data.appendID = σ.last
  lookup : ∀ appendID a, i.appendsOpen.lookup appendID = some a ↔
    a ∈ as ∧ (i.appenders a).data.appendID = appendID
  pool_nodup : i.appendersPool.Nodup
  pool_free : ∀ a ∈ i.appendersPool, a ∉ i.appendsOpenList :: as
  lt_end : ∀ a, a ∈ i.appendsOpenList :: as ∨ a ∈ i.appendersPool → a < i.appendersEnd

/-- `readsOpen` has the open reads, at the addresses `rs`. -/
structure ReadsRefine (i : Isolation) (σ : Opens) (rs : List ℕ) : Prop where
  list : Holds i.states i.readsOpen rs
  reads : (rs.map fun r => (r, (i.states r).data)) = σ.reads
  nextRead : i.statesEnd = σ.nextRead
  lt_end : ∀ r ∈ i.readsOpen :: rs, r < i.statesEnd

variable {i : Isolation} {σ : Opens} {as rs : List ℕ}

namespace AppendsRefine

section

variable (h : AppendsRefine i σ as)
include h

lemma oldest : (i.appenders (i.appenders i.appendsOpenList).next).data.appendID = σ.oldest := by
  have hnext : (i.appenders i.appendsOpenList).next = as.headD i.appendsOpenList :=
    h.list.next_sentinel
  rw [hnext, Opens.oldest, ← h.ids]
  cases as with
  | nil => exact h.last
  | cons a as => rfl

lemma keys : i.appendsOpen.keys.toFinset = σ.appends.toFinset := by
  ext appendID
  rw [List.mem_toFinset, List.mem_toFinset, ← AList.mem_keys, ← AList.lookup_isSome,
    isSome_iff_exists, ← h.ids, List.mem_map]
  simp only [h.lookup]

/-- An appender from the pool, or a new one, is not in the list. -/
lemma getAppender (pick : Option ℕ) :
    ∃ app pool appenders e, i.getAppender pick =
        (app, { i with appenders := appenders, appendersEnd := e, appendersPool := pool }) ∧
      AppendsRefine
        { i with appenders := appenders, appendersEnd := e, appendersPool := pool } σ as ∧
      app ∉ i.appendsOpenList :: as ∧ app ∉ pool ∧ app < e := by
  cases hpick : pick.filter (· ∈ i.appendersPool) with
  | some app =>
    have happ : app ∈ i.appendersPool := by
      simpa using (filter_eq_some_iff.1 hpick).2
    refine ⟨app, i.appendersPool.erase app, i.appenders, i.appendersEnd, ?_, ?_,
      h.pool_free app happ, h.pool_nodup.not_mem_erase, h.lt_end app (.inr happ)⟩
    · simp only [Isolation.getAppender, hpick]
    exact ⟨h.list, h.ids, h.last, h.lookup, h.pool_nodup.erase app,
      fun a ha => h.pool_free a (mem_of_mem_erase ha),
      fun a ha => h.lt_end a (ha.imp_right mem_of_mem_erase)⟩
  | none =>
    have hnew : ∀ a, a ∈ i.appendsOpenList :: as ∨ a ∈ i.appendersPool → a ≠ i.appendersEnd :=
      fun a ha => (h.lt_end a ha).ne
    have hlist : i.appendersEnd ∉ i.appendsOpenList :: as := fun hmem => hnew _ (.inl hmem) rfl
    have hdata : ∀ a ∈ i.appendsOpenList :: as,
        update i.appenders i.appendersEnd noAppender a = i.appenders a :=
      fun a ha => update_of_ne (hnew a (.inl ha)) _ _
    refine ⟨i.appendersEnd, i.appendersPool, update i.appenders i.appendersEnd noAppender,
      i.appendersEnd + 1, ?_, ?_, hlist, fun hmem => hnew _ (.inr hmem) rfl, Nat.lt_succ_self _⟩
    · simp only [Isolation.getAppender, hpick]
    refine ⟨h.list.update hlist noAppender, ?_, ?_, fun appendID a => ?_, h.pool_nodup, h.pool_free,
      fun a ha => Nat.lt_succ_of_lt (h.lt_end a ha)⟩
    · rw [← h.ids]
      refine map_congr_left fun a ha => ?_
      simp only [hdata a (mem_cons_of_mem _ ha)]
    · simp only [hdata _ mem_cons_self, h.last]
    · rw [h.lookup]
      refine and_congr_right fun ha => ?_
      simp only [hdata a (mem_cons_of_mem _ ha)]

lemma countAppend : AppendsRefine i.countAppend { σ with last := σ.last + 1 } as := by
  have hsentinel : i.appendsOpenList ∉ as := (nodup_cons.1 h.list.nodup).1
  have hdata : ∀ a ∈ as, ∀ d, setData i.appenders i.appendsOpenList d a = i.appenders a := by
    intro a ha d
    have hne : a ≠ i.appendsOpenList := fun he => hsentinel (he ▸ ha)
    exact update_of_ne hne _ _
  refine ⟨h.list.setData .., ?_, ?_, fun appendID a => ?_, h.pool_nodup, h.pool_free, h.lt_end⟩
  · rw [← h.ids]
    refine map_congr_left fun a ha => ?_
    simp only [Isolation.countAppend, hdata a ha]
  · simp only [Isolation.countAppend, setData, update_self, h.last]
  · rw [Isolation.countAppend, h.lookup]
    refine and_congr_right fun ha => ?_
    simp only [hdata a ha]

/-- Put an appender for the last append ID at the end of the list. -/
lemma insert {app : ℕ} (hlist : app ∉ i.appendsOpenList :: as)
    (hpool : app ∉ i.appendersPool) (hlt : app < i.appendersEnd)
    (hnew : ∀ a ∈ σ.appends, a ≠ σ.last) (minTime : ℤ) :
    AppendsRefine { i with
      appenders := link i.appenders app ⟨σ.last, minTime⟩ (i.appenders i.appendsOpenList).prev
        i.appendsOpenList
      appendsOpen := i.appendsOpen.insert σ.last app }
      { σ with appends := σ.appends ++ [σ.last] } (as ++ [app]) := by
  have hne : ∀ a ∈ i.appendsOpenList :: as, a ≠ app := fun a ha he => hlist (he ▸ ha)
  have hold : ∀ a ∈ i.appendsOpenList :: as, ∀ d p n,
      (link i.appenders app d p n a).data = (i.appenders a).data :=
    fun a ha d p n => (data_link a).trans (if_neg (hne a ha))
  have happ : ∀ d p n, (link i.appenders app d p n app).data = d :=
    fun d p n => (data_link app).trans (if_pos rfl)
  refine ⟨h.list.linkLast hlist _, ?_, ?_, fun appendID a => ?_, h.pool_nodup, fun a ha => ?_,
    fun a ha => ?_⟩
  · rw [map_append, ← h.ids, map_singleton, happ]
    congr 1
    refine map_congr_left fun a ha => ?_
    rw [hold a (mem_cons_of_mem _ ha)]
  · rw [hold _ mem_cons_self, h.last]
  · -- the new ID is that of the new appender only
    by_cases hid : appendID = σ.last
    · subst hid
      rw [AList.lookup_insert, some_inj]
      constructor
      · rintro rfl
        exact ⟨by simp, by rw [happ]⟩
      · rintro ⟨ha, hid⟩
        rcases mem_append.1 ha with ha | ha
        · rw [hold a (mem_cons_of_mem _ ha)] at hid
          have hmem : (i.appenders a).data.appendID ∈ σ.appends :=
            h.ids ▸ mem_map_of_mem ha
          exact absurd hid (hnew _ hmem)
        · exact (mem_singleton.1 ha).symm
    · rw [AList.lookup_insert_ne hid, h.lookup]
      constructor
      · rintro ⟨ha, hid⟩
        exact ⟨mem_append_left _ ha, by rw [hold a (mem_cons_of_mem _ ha), hid]⟩
      · rintro ⟨ha, heq⟩
        rcases mem_append.1 ha with ha | ha
        · rw [hold a (mem_cons_of_mem _ ha)] at heq
          exact ⟨ha, heq⟩
        · rw [mem_singleton.1 ha, happ] at heq
          exact absurd heq.symm hid
  · rw [← cons_append, mem_append, mem_singleton]
    rintro (hmem | rfl)
    · exact h.pool_free a ha hmem
    · exact hpool ha
  · rw [← cons_append, mem_append, mem_singleton, or_right_comm] at ha
    rcases ha with ha | rfl
    · exact h.lt_end a ha
    · exact hlt

/-- Take an appender out of the list, clear it, and return it to the pool. -/
lemma close (hsorted : σ.appends.Pairwise (· < ·)) {app : ℕ}
    (hlookup : i.appendsOpen.lookup appendID = some app) :
    ∃ as', AppendsRefine { i with
      appenders := update (unlink i.appenders app) app noAppender
      appendsOpen := i.appendsOpen.erase appendID
      appendersPool := app :: i.appendersPool }
      { σ with appends := σ.appends.erase appendID } as' := by
  obtain ⟨happ, hid⟩ := (h.lookup appendID app).1 hlookup
  obtain ⟨as₁, as₂, rfl⟩ := append_of_mem happ
  have hnodup : (i.appendsOpenList :: as₁ ++ app :: as₂).Nodup := h.list.nodup
  have hout : app ∉ i.appendsOpenList :: (as₁ ++ as₂) :=
    (nodup_middle.1 hnodup |> nodup_cons.1).1
  have hdata : ∀ a ∈ i.appendsOpenList :: (as₁ ++ as₂),
      (update (unlink i.appenders app) app noAppender a).data = (i.appenders a).data := by
    intro a ha
    have hne : a ≠ app := fun he => hout (he ▸ ha)
    rw [update_of_ne hne, data_unlink]
  have hmem : ∀ a, a ∈ as₁ ++ as₂ → a ∈ as₁ ++ app :: as₂ := by
    intro a ha
    simp only [mem_append, mem_cons] at ha ⊢
    tauto
  refine ⟨as₁ ++ as₂, h.list.unlink.update hout noAppender, ?_, ?_, fun id a => ?_,
    nodup_cons.2 ⟨fun hpool => h.pool_free app hpool (by simp), h.pool_nodup⟩, fun a ha => ?_,
    fun a ha => ?_⟩
  · -- the IDs increase, so this one was there once
    have hids : σ.appends = (as₁.map fun a => (i.appenders a).data.appendID) ++
        appendID :: as₂.map fun a => (i.appenders a).data.appendID := by
      rw [← h.ids, map_append, map_cons, hid]
    have hfirst : appendID ∉ as₁.map fun a => (i.appenders a).data.appendID := by
      intro hmem
      rw [hids] at hsorted
      exact lt_irrefl _ ((pairwise_append.1 hsorted).2.2 appendID hmem appendID (by simp))
    rw [hids, erase_append_right _ hfirst, erase_cons_head, ← map_append]
    refine map_congr_left fun a ha => ?_
    rw [hdata a (mem_cons_of_mem _ ha)]
  · rw [hdata _ mem_cons_self, h.last]
  · by_cases heq : id = appendID
    · subst heq
      rw [AList.lookup_erase]
      refine iff_of_false (by simp) ?_
      rintro ⟨ha, hida⟩
      rw [hdata a (mem_cons_of_mem _ ha)] at hida
      have hlookup' := (h.lookup id a).2 ⟨hmem a ha, hida⟩
      rw [hlookup, some_inj] at hlookup'
      exact hout (hlookup' ▸ mem_cons_of_mem _ ha)
    · rw [AList.lookup_erase_ne heq, h.lookup]
      constructor
      · rintro ⟨ha, hida⟩
        have hne : a ≠ app := by
          rintro rfl
          exact heq (hida.symm.trans hid)
        have ha' : a ∈ as₁ ++ as₂ := by
          simp only [mem_append, mem_cons] at ha ⊢
          tauto
        exact ⟨ha', by rw [hdata a (mem_cons_of_mem _ ha'), hida]⟩
      · rintro ⟨ha, hida⟩
        rw [hdata a (mem_cons_of_mem _ ha)] at hida
        exact ⟨hmem a ha, hida⟩
  · rcases mem_cons.1 ha with rfl | ha
    · exact hout
    · intro hin
      refine h.pool_free a ha ?_
      rcases mem_cons.1 hin with rfl | hin
      · exact mem_cons_self
      · exact mem_cons_of_mem _ (hmem a hin)
  · refine h.lt_end a ?_
    rcases ha with ha | ha
    · rcases mem_cons.1 ha with rfl | ha
      · exact .inl mem_cons_self
      · exact .inl (mem_cons_of_mem _ (hmem a ha))
    rcases mem_cons.1 ha with rfl | ha
    · exact .inl (by simp)
    · exact .inr ha

end

end AppendsRefine

namespace ReadsRefine

/-- A new read is put in at the front. -/
lemma state (h : ReadsRefine i σ rs) (happends : AppendsRefine i σ as) (mint maxt : ℤ) :
    ReadsRefine (i.state mint maxt).2 (σ.step (.state mint maxt))
      ((i.state mint maxt).1 :: rs) := by
  have hlist : i.statesEnd ∉ i.readsOpen :: rs := fun hmem => lt_irrefl _ (h.lt_end _ hmem)
  have hold : ∀ r ∈ rs, ∀ d a b, (link i.states i.statesEnd d a b r).data = (i.states r).data := by
    intro r hr d a b
    have hne : r ≠ i.statesEnd := fun he => hlist (he ▸ mem_cons_of_mem _ hr)
    rw [data_link, if_neg hne]
  refine ⟨h.list.linkFirst hlist _, ?_, ?_, ?_⟩
  · simp only [Isolation.state, map_cons, Opens.step]
    refine congrArg₂ cons ?_ ?_
    · rw [data_link, if_pos rfl, h.nextRead, happends.keys, happends.last, happends.oldest]
      rfl
    rw [← h.reads]
    refine map_congr_left fun r hr => ?_
    rw [hold r hr]
  · simp only [Isolation.state, Opens.step, h.nextRead]
  · intro r hr
    refine Nat.lt_succ_iff.2 ?_
    rcases mem_cons.1 hr with rfl | hr
    · exact (h.lt_end _ mem_cons_self).le
    rcases mem_cons.1 hr with rfl | hr
    · exact le_rfl
    · exact (h.lt_end r (mem_cons_of_mem _ hr)).le

/-- A read is taken out wherever it is. -/
lemma close (h : ReadsRefine i σ rs) {isoState : ℕ} (hmem : isoState ∈ rs) :
    ReadsRefine (i.close isoState) (σ.step (.close isoState)) (rs.erase isoState) := by
  have hnodup := (nodup_cons.1 h.list.nodup).2
  have hreads : (σ.step (.close isoState)).reads =
      (rs.erase isoState).map fun r => (r, (i.states r).data) := by
    rw [Opens.step, ← h.reads, eraseP_map, erase_eq_eraseP']
    rfl
  obtain ⟨rs₁, rs₂, rfl⟩ := append_of_mem hmem
  have hfirst : isoState ∉ rs₁ := by
    intro hin
    exact (nodup_append.1 hnodup).2.2 isoState hin isoState (by simp) rfl
  have herase : (rs₁ ++ isoState :: rs₂).erase isoState = rs₁ ++ rs₂ := by
    rw [erase_append_right _ hfirst, erase_cons_head]
  rw [herase] at hreads ⊢
  refine ⟨h.list.unlink, ?_, h.nextRead, fun r hr => h.lt_end r ?_⟩
  · rw [hreads]
    simp only [Isolation.close, data_unlink]
  · simp only [Isolation.close, mem_cons, mem_append] at hr ⊢
    tauto

end ReadsRefine

/-- The watermark is read off the two lists. -/
lemma lowWatermark_eq (happends : AppendsRefine i σ as) (hreads : ReadsRefine i σ rs)
    (hdisabled : i.disabled = σ.disabled) : i.lowWatermark = σ.watermark := by
  have hprev : (i.states i.readsOpen).prev = rs.getLastD i.readsOpen := hreads.list.prev_sentinel
  have hnone := hreads.list.prev_sentinel_eq_iff
  unfold lowWatermark Opens.watermark
  rw [hdisabled, happends.oldest, ← hreads.reads]
  split_ifs with hdis hsome
  · rfl
  · have hne : rs ≠ [] := fun hnil => hsome (hnone.2 hnil)
    rw [hprev, getLastD_eq_getLast?, getLast?_map, getLast?_eq_some_getLast hne]
    rfl
  · have hnil : rs = [] := hnone.1 (not_not.1 hsome)
    rw [hnil]
    rfl

/-- The isolation has what is open in its lists, and readers hold the open reads. -/
structure Refines (s : System) (σ : Opens) : Prop where
  disabled : s.iso.disabled = σ.disabled
  appends : ∃ as, AppendsRefine s.iso σ as
  reads : ReadsRefine s.iso σ s.held

lemma refines_new (disabled : Bool) :
    Refines ⟨newIsolation disabled, []⟩ (Opens.empty disabled) := by
  refine ⟨rfl, ⟨[], isList_nil rfl rfl, rfl, rfl, fun appendID a => ?_, nodup_nil, ?_, ?_⟩,
    isList_nil rfl rfl, rfl, rfl, ?_⟩
  · simp [newIsolation]
  · simp [newIsolation]
  · simp [newIsolation]
  · simp [newIsolation]

variable {s s' : System}

/-- A new append, if isolation is not disabled. -/
lemma Refines.newAppendID (h : Refines s σ) (hinv : σ.Inv) (hdisabled : s.iso.disabled = false)
    (minTime : ℤ) (pick : Option ℕ) :
    ∃ appendID iso, s.iso.newAppendID minTime pick =
        ((appendID, (σ.step (.newAppendID minTime pick)).watermark), iso) ∧
      Refines ⟨iso, s.held⟩ (σ.step (.newAppendID minTime pick)) := by
  obtain ⟨as, happends⟩ := h.appends
  obtain ⟨app, pool, appenders, e, hget, hbumped, hlist, hpool, hlt⟩ :=
    happends.countAppend.getAppender pick
  have hnew : ∀ a ∈ σ.appends, a ≠ σ.last + 1 :=
    fun a ha => (Nat.lt_succ_of_le (hinv.le_last a ha)).ne
  have hinsert := hbumped.insert hlist hpool hlt hnew minTime
  have hstep : σ.step (.newAppendID minTime pick) =
      { σ with last := σ.last + 1, appends := σ.appends ++ [σ.last + 1] } := by
    rw [Opens.step, if_neg (by rw [← h.disabled, hdisabled]; simp)]
  rw [← hstep] at hinsert
  have hreads : ∀ appenders e appendsOpen pool, ReadsRefine { s.iso with
        appenders := appenders
        appendersEnd := e
        appendsOpen := appendsOpen
        appendersPool := pool } (σ.step (.newAppendID minTime pick)) s.held := by
    intro appenders e appendsOpen pool
    rw [hstep]
    exact ⟨h.reads.list, h.reads.reads, h.reads.nextRead, h.reads.lt_end⟩
  refine ⟨σ.last + 1, _, ?_, by rw [Opens.step_disabled]; exact h.disabled, ⟨_, hinsert⟩, hreads ..⟩
  have hwatermark := lowWatermark_eq hinsert (hreads ..)
    (by rw [Opens.step_disabled]; exact h.disabled)
  rw [← hwatermark]
  simp only [Isolation.newAppendID, hdisabled, Bool.false_eq_true, if_false, hget,
    happends.countAppend.last]

/-- One call does to the lists what it does to what is open, and returns the low watermark. -/
lemma Refines.call (h : Refines s σ) (hinv : σ.Inv) {c : Call} {watermark : Option ℕ}
    (hcall : s.call c = some (s', watermark)) :
    Refines s' (σ.step c) ∧ ∀ w ∈ watermark, w = (σ.step c).watermark := by
  obtain ⟨as, happends⟩ := h.appends
  cases c with
  | newAppendID minTime pick =>
    cases hdisabled : s.iso.disabled with
    | true =>
      have hstep : σ.step (.newAppendID minTime pick) = σ := by
        rw [Opens.step, if_pos (by rw [← h.disabled, hdisabled])]
      simp only [System.call, Isolation.newAppendID, hdisabled, if_true] at hcall
      cases hcall
      rw [hstep]
      refine ⟨h, fun w hw => ?_⟩
      rw [Opens.watermark, if_pos (by rw [← h.disabled, hdisabled])]
      exact (some.inj hw).symm
    | false =>
      obtain ⟨appendID, iso, hnew, hrefines⟩ := h.newAppendID hinv hdisabled minTime pick
      simp only [System.call, hnew] at hcall
      cases hcall
      exact ⟨hrefines, fun w hw => (some.inj hw).symm⟩
  | closeAppend appendID =>
    cases hcall
    refine ⟨?_, by simp⟩
    cases hdisabled : s.iso.disabled with
    | true =>
      have hstep : σ.step (.closeAppend appendID) = σ := by
        rw [Opens.step, if_pos (by rw [← h.disabled, hdisabled])]
      rw [hstep, Isolation.closeAppend, if_pos hdisabled]
      exact h
    | false =>
      have hstep : σ.step (.closeAppend appendID) =
          { σ with appends := σ.appends.erase appendID } := by
        rw [Opens.step, if_neg (by rw [← h.disabled, hdisabled]; simp)]
      rw [hstep, Isolation.closeAppend, if_neg (by rw [hdisabled]; simp)]
      cases hlookup : s.iso.appendsOpen.lookup appendID with
      | none =>
        -- no open append has this ID
        have hout : appendID ∉ σ.appends := by
          rw [← List.mem_toFinset, ← happends.keys, List.mem_toFinset, ← AList.mem_keys]
          exact AList.lookup_eq_none.1 hlookup
        rw [erase_of_not_mem hout]
        exact h
      | some app =>
        exact ⟨h.disabled, happends.close hinv.sorted hlookup, h.reads.list, h.reads.reads,
          h.reads.nextRead, h.reads.lt_end⟩
  | state mint maxt =>
    cases hcall
    refine ⟨⟨h.disabled, ⟨as, ?_⟩, h.reads.state happends mint maxt⟩, by simp⟩
    exact ⟨happends.list, happends.ids, happends.last, happends.lookup, happends.pool_nodup,
      happends.pool_free, happends.lt_end⟩
  | close isoState =>
    rw [System.call] at hcall
    split_ifs at hcall with hheld
    cases hcall
    refine ⟨⟨h.disabled, ⟨as, ?_⟩, h.reads.close hheld⟩, by simp⟩
    exact ⟨happends.list, happends.ids, happends.last, happends.lookup, happends.pool_nodup,
      happends.pool_free, happends.lt_end⟩
  | lowWatermark =>
    cases hcall
    refine ⟨h, fun w hw => ?_⟩
    rw [← some.inj hw]
    exact lowWatermark_eq happends h.reads h.disabled

/-! ### Interleavings -/

/-- What an interleaving keeps: the watermarks returned so far do not decrease, and are at most the
watermark of now. -/
structure RunInv (s : System × List ℕ) (σ : Opens) : Prop where
  refines : Refines s.1 σ
  inv : σ.Inv
  sorted : s.2.Pairwise (· ≤ ·)
  le_watermark : ∀ w ∈ s.2, w ≤ σ.watermark

lemma RunInv.next {s s' : System × List ℕ} (h : RunInv s σ) {c : Call}
    (hnext : Isolation.next s c = some s') : RunInv s' (σ.step c) := by
  obtain ⟨⟨t, watermark⟩, hcall, rfl⟩ := map_eq_some_iff.1 hnext
  obtain ⟨hrefines, hwatermark⟩ := h.refines.call h.inv hcall
  have hle : ∀ w ∈ s.2, w ≤ (σ.step c).watermark :=
    fun w hw => (h.le_watermark w hw).trans (h.inv.watermark_le_step c)
  refine ⟨hrefines, h.inv.step c, ?_, fun w hw => ?_⟩
  · refine pairwise_append.2 ⟨h.sorted, ?_, fun w hw w' hw' => ?_⟩
    · cases watermark <;> simp
    · rw [hwatermark w' (mem_toList.1 hw')]
      exact hle w hw
  · rcases mem_append.1 hw with hw | hw
    · exact hle w hw
    · exact (hwatermark w (mem_toList.1 hw)).le

lemma RunInv.run {s s' : System × List ℕ} (h : RunInv s σ)
    (hrun : calls.foldlM Isolation.next s = some s') : RunInv s' (calls.foldl Opens.step σ) := by
  induction calls generalizing s σ with
  | nil =>
    obtain rfl := some.inj hrun
    exact h
  | cons c calls ih =>
    rw [foldlM_cons] at hrun
    obtain ⟨t, hnext, hrun⟩ := bind_eq_some_iff.1 hrun
    exact ih (h.next hnext) hrun

lemma runInv_of_run {disabled : Bool} {s : System} {watermarks : List ℕ}
    (hrun : run disabled calls = some (s, watermarks)) :
    RunInv (s, watermarks) (calls.foldl Opens.step (.empty disabled)) := by
  have hinit : RunInv (⟨newIsolation disabled, []⟩, []) (Opens.empty disabled) :=
    ⟨refines_new disabled, Opens.inv_empty disabled, List.Pairwise.nil, by simp⟩
  exact hinit.run hrun

/-- **Isolation.** After any interleaving of calls:

* `appendsOpenList` is a doubly linked list of the open appends with increasing IDs, and `readsOpen`
  one of the open reads, which are those that readers hold, the newest one first;
* the low watermarks never decreased;
* no low watermark that was ever returned is above an append ID that a read hides which is open now,
  whenever it was opened;
* so a series that forgets the append IDs below such a watermark keeps those that a read hides. -/
theorem watermark_safe {disabled : Bool} {calls : List Call} {s : System} {watermarks : List ℕ}
    (hrun : run disabled calls = some (s, watermarks)) :
    let opens := calls.foldl Opens.step (.empty disabled)
    (∃ as, Holds s.iso.appenders s.iso.appendsOpenList as ∧
      (as.map fun a => (s.iso.appenders a).data.appendID) = opens.appends ∧
      opens.appends.Pairwise (· < ·)) ∧
    (Holds s.iso.states s.iso.readsOpen s.held ∧
      (s.held.map fun r => (r, (s.iso.states r).data)) = opens.reads) ∧
    watermarks.Pairwise (· ≤ ·) ∧
    ∀ w ∈ watermarks, ∀ r ∈ s.held,
      (∀ appendID, (s.iso.states r).data.Hides appendID → w ≤ appendID) ∧
      ∀ txr : TxRing, txr.Valid →
        ∃ txr', txr.cleanupAppendIDsBelow (BitVec.ofNat 64 w) = some txr' ∧
          ∀ appendID ∈ txr.contents, (s.iso.states r).data.Hides appendID.toNat →
            appendID ∈ txr'.contents := by
  intro opens
  obtain ⟨hrefines, hinv, hsorted, hle⟩ := runInv_of_run hrun
  obtain ⟨as, happends⟩ := hrefines.appends
  refine ⟨⟨as, happends.list, happends.ids, hinv.sorted⟩,
    ⟨hrefines.reads.list, hrefines.reads.reads⟩, hsorted, fun w hw r hr => ?_⟩
  have hread : (r, (s.iso.states r).data) ∈ opens.reads :=
    hrefines.reads.reads ▸ mem_map_of_mem hr
  have hbound : ∀ appendID, (s.iso.states r).data.Hides appendID → w ≤ appendID :=
    fun appendID hid => (hle w hw).trans (hinv.watermark_le hread hid)
  refine ⟨hbound, fun txr hvalid => ?_⟩
  obtain ⟨txr', hcleanup, -, hcontents⟩ := hvalid.cleanupAppendIDsBelow (BitVec.ofNat 64 w)
  refine ⟨txr', hcleanup, fun appendID hmem hid => ?_⟩
  -- the loop stops at this ID, if it has not stopped before it
  have hge : ¬appendID < BitVec.ofNat 64 w := by
    rw [BitVec.lt_def, BitVec.toNat_ofNat, not_lt]
    exact (Nat.mod_le w (2 ^ 64)).trans (hbound _ hid)
  rw [hcontents]
  rw [← takeWhile_append_dropWhile (p := fun x => decide (x < BitVec.ofNat 64 w))
    (l := txr.contents)] at hmem
  rcases mem_append.1 hmem with hmem | hmem
  · exact absurd (mem_takeWhile_imp hmem) (by simpa using hge)
  · exact hmem

/-- A read opened during the first append keeps the watermark there, after the append is closed and
its node is used again. -/
theorem watermark_safe_three : ∃ s, run false [.newAppendID 0 none, .state 0 10,
      .newAppendID 5 none, .closeAppend 1, .newAppendID 7 (some 2)] = some (s, [1, 1, 1]) ∧
    s.held = [2] ∧ ∀ appendID, (s.iso.states 2).data.Hides appendID → 1 ≤ appendID := by
  obtain ⟨s, hrun, hheld⟩ : ∃ s, run false [.newAppendID 0 none, .state 0 10,
      .newAppendID 5 none, .closeAppend 1, .newAppendID 7 (some 2)] = some (s, [1, 1, 1]) ∧
    s.held = [2] := ⟨_, rfl, rfl⟩
  refine ⟨s, hrun, hheld, fun appendID hid => ?_⟩
  have hread : 2 ∈ s.held := by simp [hheld]
  exact ((watermark_safe hrun).2.2.2 1 (by simp) 2 hread).1 appendID hid

end Isolation
end Prometheus.Tsdb
