import Prometheus.Lib.Transition
import Prometheus.Tsdb.OOOHead

/-!
# The walk of an out-of-order compaction

`NewOOOCompactionHead` of `tsdb/ooo_head_read.go`. It goes through a list of the series, and has
only one of them locked at a time. Of each it writes the out-of-order chunk to disk, and notes the
series, the times of its chunks, and the ref of its newest chunk if it is the greatest so far. After
the compaction, `truncateOOO` removes all chunks up to this ref, of all series.

While the walk goes on, samples are inserted in all series. A chunk that is written for a series
which the walk has already passed, or which is not in its list, is not noted. It has a greater ref
than all that was noted until then, but the walk may come to a greater one: it overtakes the chunk
(`Overtaken`). This does no harm if the walk found an older chunk of the series when it visited it,
and chunks, of whatever series, that are as early and as late (`Covered`). So nothing is lost if and
only if every chunk that is overtaken is covered (`newOOOCompactionHead_loses_nothing_iff`). Both
conditions are on the steps of the run alone.

The proof is an invariant of the walk (`Accounted`): each chunk is of a series that will be visited,
or is visible to the compaction, or was written after the walk had passed its series and is newer
than all that is noted, or was overtaken. What is visible in the end is what the visits have seen
(`visible_iff_covered`).
-/

namespace Prometheus.Tsdb.OOOCompaction

open OOOHead GoInt List Option Function
open Chunks (unpackRef greaterThan greaterThan_iff)

variable {V : Type}

/-! ### The model -/

structure OOOCompactionHead where
  lastMmapRef : ℕ
  lastSeq : ℕ
  lastOff : ℕ
  postings : List ℕ
  mint : ℤ
  maxt : ℤ
deriving DecidableEq

/-- The head with the out-of-order chunks of its series and with the disk, and the walk with the
series that it has still to visit. -/
structure State (V : Type) where
  ooo : ℕ → Option (MemSeriesOOOFields V)
  disk : OOODisk V
  todo : List ℕ
  ch : OOOCompactionHead

namespace State

/-- The walk starts with a list of the series. -/
def start (ooo : ℕ → Option (MemSeriesOOOFields V)) (disk : OOODisk V) (postings : List ℕ) :
    State V where
  ooo := ooo
  disk := disk
  todo := postings
  ch := ⟨0, 0, 0, [], maxInt64, minInt64⟩

def mmapped (st : State V) (s : ℕ) : List MmappedChunk :=
  (st.ooo s).elim [] MemSeriesOOOFields.oooMmappedChunks

end State

attribute [local simp] State.mmapped

namespace OOOCompactionHead

variable (ch : OOOCompactionHead)

/-- The ref is noted if it is greater than the last one. -/
def noteRef (lastMmapRef : ℕ) : OOOCompactionHead :=
  let seq := (unpackRef lastMmapRef).1
  let off := (unpackRef lastMmapRef).2
  if seq > ch.lastSeq ∨ seq = ch.lastSeq ∧ off > ch.lastOff then
    { ch with
      lastMmapRef := lastMmapRef
      lastSeq := seq
      lastOff := off }
  else ch

/-- The times of a chunk are noted. -/
def noteTimes (c : MmappedChunk) : OOOCompactionHead :=
  { ch with
    mint := if c.minTime < ch.mint then c.minTime else ch.mint
    maxt := if c.maxTime > ch.maxt then c.maxTime else ch.maxt }

/-- A series with chunks is noted. -/
def noteSeries (s : ℕ) (cs : List MmappedChunk) : OOOCompactionHead :=
  if cs.length > 0 then cs.foldl noteTimes { ch with postings := ch.postings ++ [s] } else ch

end OOOCompactionHead

section Step

variable (A : RefSource) (enc : OOOEncoding V) (oooCapMax : ℤ)

/-- The ref of the newest chunk after the chunks with the refs `mmapRefs` have been written. -/
def lastRef (mmapRefs : List ℕ) (o : MemSeriesOOOFields V) : ℕ :=
  let mmapRefs :=
    if mmapRefs.length = 0 ∧ o.oooMmappedChunks.length > 0 then
      -- Nothing was m-mapped. So take the ref from the existing slice.
      (o.oooMmappedChunks.getLast?.map MmappedChunk.ref).toList
    else mmapRefs
  mmapRefs.getLast?.getD 0

/-- What can happen between the start and the end of the walk. -/
inductive Action (V : Type)
  | insert (s : ℕ) (t : ℤ) (v : V)
  /-- Something else is written to disk. -/
  | write
  /-- The walk visits the next series. -/
  | visit

/-- One action. There is no visit when all series have been visited. -/
def step (st : State V) : Action V → Option (State V)
  | .insert s t v =>
    let r := OOOHead.insert A enc oooCapMax s t v (st.ooo s) st.disk
    some { st with
      ooo := Function.update st.ooo s (some r.ooo)
      disk := r.disk }
  | .write => some { st with disk := st.disk ++ [none] }
  | .visit =>
    match st.todo with
    | [] => none
    | s :: todo =>
      match st.ooo s with
      | none => some { st with todo := todo }
      | some o =>
        let (mmapRefs, o, disk) := mmapCurrentOOOHeadChunk A enc s o st.disk
        some
          { ooo := Function.update st.ooo s (some o)
            disk := disk
            todo := todo
            ch := (st.ch.noteRef (lastRef mmapRefs o)).noteSeries s o.oooMmappedChunks }

end Step

/-! ### The property -/

/-- A chunk of the series `s` is visible to the compaction. -/
def Visible (ch : OOOCompactionHead) (s : ℕ) (c : MmappedChunk) : Prop :=
  s ∈ ch.postings ∧ ch.mint ≤ c.minTime ∧ c.maxTime ≤ ch.maxt

instance (ch : OOOCompactionHead) (s : ℕ) (c : MmappedChunk) : Decidable (Visible ch s c) :=
  inferInstanceAs (Decidable (_ ∧ _))

/-- Every chunk up to the last ref is visible, and only visible chunks are removed. -/
structure LosesNothing (st : State V) : Prop where
  visible : ∀ s, ∀ c ∈ st.mmapped s, ¬greaterThan c.ref st.ch.lastMmapRef → Visible st.ch s c
  removed : ∀ s, ∀ c ∈ st.mmapped s, c ∉ truncate st.ch.lastMmapRef (st.mmapped s) →
    Visible st.ch s c

section Overtaken

variable (A : RefSource) (enc : OOOEncoding V) (oooCapMax : ℤ)

/-- The walk is about to visit a series whose newest chunk has the ref `r` or a greater one. -/
def Overtakes (r : ℕ) (st : State V) : Action V → Prop
  | .visit => ∃ s o, st.todo.head? = some s ∧ st.ooo s = some o ∧
      r ≤ lastRef (mmapCurrentOOOHeadChunk A enc s o st.disk).1
        (mmapCurrentOOOHeadChunk A enc s o st.disk).2.1
  | _ => False

/-- The chunk `c` is written by an insert into the series `s`, to which the walk will not come any
more. -/
def Late (s : ℕ) (c : MmappedChunk) (st : State V) : Action V → Prop
  | .insert s' t v => s' = s ∧ s ∉ st.todo ∧ c ∉ st.mmapped s ∧
      c ∈ (OOOHead.insert A enc oooCapMax s t v (st.ooo s) st.disk).ooo.oooMmappedChunks
  | _ => False

/-- The walk is about to visit the series `s`, and the chunk `c` is among those of the series, or is
written by the visit. -/
def Sees (s : ℕ) (c : MmappedChunk) (st : State V) : Action V → Prop
  | .visit => st.todo.head? = some s ∧ ∃ o, st.ooo s = some o ∧
      c ∈ (mmapCurrentOOOHeadChunk A enc s o st.disk).2.1.oooMmappedChunks
  | _ => False

variable (st₀ : State V) (as : List (Action V)) (s : ℕ) (c : MmappedChunk)

/-- A chunk is written too late for the walk, which later visits a series with a newer chunk. -/
def Overtaken : Prop :=
  ∃ as₁ a as₂ st₁ st₂, as = as₁ ++ a :: as₂ ∧
    Transition.run (step A enc oooCapMax) st₀ as₁ = some st₁ ∧ Late A enc oooCapMax s c st₁ a ∧
    step A enc oooCapMax st₁ a = some st₂ ∧
    Transition.Sometime (step A enc oooCapMax) (Overtakes A enc c.ref) st₂ as₂

/-- Some visit sees the chunk. -/
def Seen : Prop :=
  Transition.Sometime (step A enc oooCapMax) (Sees A enc s c) st₀ as

/-- The visits see some chunk of the series `s`, and times around those of `c`. The times of a walk
that has seen nothing are the greatest and the least one. -/
structure Covered : Prop where
  series : ∃ c', Seen A enc oooCapMax st₀ as s c'
  before : maxInt64 ≤ c.minTime ∨
    ∃ s' c', Seen A enc oooCapMax st₀ as s' c' ∧ c'.minTime ≤ c.minTime
  after : c.maxTime ≤ minInt64 ∨
    ∃ s' c', Seen A enc oooCapMax st₀ as s' c' ∧ c.maxTime ≤ c'.maxTime

end Overtaken

open Transition

/-! ### What a step does -/

/-- The refs of chunks are those of earlier writes, and so is the one that is noted. -/
structure Allocated (A : RefSource) (st : State V) : Prop where
  pos : ∀ s, ∀ c ∈ st.mmapped s, 0 < c.ref
  lt : ∀ s, ∀ c ∈ st.mmapped s, c.ref < A.ref st.disk.length
  last_lt : st.ch.lastMmapRef < A.ref st.disk.length
  last_eq : (st.ch.lastSeq, st.ch.lastOff) = unpackRef st.ch.lastMmapRef

variable {cs : List MmappedChunk} {ch' : OOOCompactionHead} {s : ℕ}

namespace OOOCompactionHead

variable {ch : OOOCompactionHead} {c : MmappedChunk} {s : ℕ}

/-- The last ref, if the file and the offset that are kept beside it are its own. -/
lemma noteRef_spec (h : (ch.lastSeq, ch.lastOff) = unpackRef ch.lastMmapRef) (ref : ℕ) :
    (ch.noteRef ref).lastMmapRef = max ch.lastMmapRef ref ∧
      ((ch.noteRef ref).lastSeq, (ch.noteRef ref).lastOff) =
        unpackRef (ch.noteRef ref).lastMmapRef := by
  have hgt : ((unpackRef ref).1 > ch.lastSeq ∨
      (unpackRef ref).1 = ch.lastSeq ∧ (unpackRef ref).2 > ch.lastOff) ↔ ch.lastMmapRef < ref := by
    rw [← greaterThan_iff, greaterThan, ← h]
    simp
  unfold noteRef
  simp only [hgt]
  split_ifs with hlt
  · exact ⟨(max_eq_right hlt.le).symm, rfl⟩
  · exact ⟨(max_eq_left (not_lt.1 hlt)).symm, h⟩

lemma noteRef_same (ch : OOOCompactionHead) (ref : ℕ) : (ch.noteRef ref).postings = ch.postings ∧
    (ch.noteRef ref).mint = ch.mint ∧ (ch.noteRef ref).maxt = ch.maxt := by
  dsimp only [noteRef]
  split_ifs <;> exact ⟨rfl, rfl, rfl⟩

/-- What is noted of the series `s` with the chunks `cs`: that it has some, and their times. -/
structure Notes (s : ℕ) (cs : List MmappedChunk) (ch ch' : OOOCompactionHead) : Prop where
  postings : ∀ s', s' ∈ ch'.postings ↔ s' ∈ ch.postings ∨ s' = s ∧ ∃ c, c ∈ cs
  mint : ∀ m, ch'.mint ≤ m ↔ ch.mint ≤ m ∨ ∃ c ∈ cs, c.minTime ≤ m
  maxt : ∀ m, m ≤ ch'.maxt ↔ m ≤ ch.maxt ∨ ∃ c ∈ cs, m ≤ c.maxTime

/-- What is visible stays visible when more is noted. -/
lemma Notes.visible (h : Notes s cs ch ch') {s' : ℕ} (hc : Visible ch s' c) : Visible ch' s' c :=
  ⟨(h.postings s').2 (.inl hc.1), (h.mint _).2 (.inl hc.2.1), (h.maxt _).2 (.inl hc.2.2)⟩

lemma Notes.visible_of_mem (h : Notes s cs ch ch') (hc : c ∈ cs) : Visible ch' s c :=
  ⟨(h.postings s).2 (.inr ⟨rfl, c, hc⟩), (h.mint _).2 (.inr ⟨c, hc, le_rfl⟩),
    (h.maxt _).2 (.inr ⟨c, hc, le_rfl⟩)⟩

lemma foldl_noteTimes (cs : List MmappedChunk) (ch : OOOCompactionHead) :
    ∃ mint maxt, cs.foldl noteTimes ch = { ch with mint := mint, maxt := maxt } ∧
      (∀ m, mint ≤ m ↔ ch.mint ≤ m ∨ ∃ c ∈ cs, c.minTime ≤ m) ∧
      ∀ m, m ≤ maxt ↔ m ≤ ch.maxt ∨ ∃ c ∈ cs, m ≤ c.maxTime := by
  induction cs generalizing ch with
  | nil => exact ⟨ch.mint, ch.maxt, rfl, by simp, by simp⟩
  | cons c cs ih =>
    obtain ⟨mint, maxt, heq, hmint, hmaxt⟩ := ih (ch.noteTimes c)
    refine ⟨mint, maxt, heq, fun m => ?_, fun m => ?_⟩
    · have hc : (ch.noteTimes c).mint ≤ m ↔ ch.mint ≤ m ∨ c.minTime ≤ m := by
        dsimp only [noteTimes]
        split_ifs <;> omega
      rw [hmint, hc]
      simp only [mem_cons, exists_eq_or_imp]
      tauto
    · have hc : m ≤ (ch.noteTimes c).maxt ↔ m ≤ ch.maxt ∨ m ≤ c.maxTime := by
        dsimp only [noteTimes]
        split_ifs <;> omega
      rw [hmaxt, hc]
      simp only [mem_cons, exists_eq_or_imp]
      tauto

/-- A series is noted, and the last ref is not touched. -/
lemma noteSeries_spec (ch : OOOCompactionHead) (s : ℕ) (cs : List MmappedChunk) :
    Notes s cs ch (ch.noteSeries s cs) ∧ (ch.noteSeries s cs).lastMmapRef = ch.lastMmapRef ∧
      ((ch.noteSeries s cs).lastSeq, (ch.noteSeries s cs).lastOff) = (ch.lastSeq, ch.lastOff) := by
  unfold noteSeries
  split_ifs with hpos
  · obtain ⟨mint, maxt, heq, hmint, hmaxt⟩ :=
      foldl_noteTimes cs { ch with postings := ch.postings ++ [s] }
    rw [heq]
    refine ⟨⟨fun s' => ?_, hmint, hmaxt⟩, rfl, rfl⟩
    rw [mem_append, mem_singleton, and_iff_left (exists_mem_of_length_pos hpos)]
  · obtain rfl := length_eq_zero_iff.1 (Nat.eq_zero_of_not_pos hpos)
    exact ⟨⟨by simp, by simp, by simp⟩, rfl, rfl⟩

end OOOCompactionHead

variable {o : MemSeriesOOOFields V}

section Steps

variable {A : RefSource} {enc : OOOEncoding V} {oooCapMax : ℤ} {st st' : State V} {a : Action V}

/-- What every step does to the chunks on disk: it may add some, with new refs. -/
structure Grows (A : RefSource) (st st' : State V) : Prop where
  disk : st.disk.length ≤ st'.disk.length
  mono : ∀ s, ∀ c ∈ st.mmapped s, c ∈ st'.mmapped s
  fresh : ∀ s, ∀ c ∈ st'.mmapped s, c ∈ st.mmapped s ∨
    A.ref st.disk.length ≤ c.ref ∧ c.ref < A.ref st'.disk.length

/-- Chunks are written for one series. -/
lemma Grows.of_mmaps {o' : MemSeriesOOOFields V} {chks : List (OOOHeadChunk V)}
    {refs : List ℕ} (hspec : Mmaps A s o st.disk chks refs o' st'.disk)
    (ho : st.mmapped s = o.oooMmappedChunks) (hooo : st'.ooo = Function.update st.ooo s (some o')) :
    Grows A st st' := by
  have hs : st'.mmapped s = st.mmapped s ++ entries A st.disk.length chks := by
    rw [State.mmapped, hooo, update_self, elim_some, hspec.mmapped_eq, ho]
  have hne : ∀ s' ≠ s, st'.mmapped s' = st.mmapped s' := by
    intro s' hs'
    rw [State.mmapped, hooo, update_of_ne hs', State.mmapped]
  have hdisk : st'.disk.length = st.disk.length + chks.length := by simp [hspec.disk_eq]
  refine ⟨by omega, fun s' c hc => ?_, fun s' c hc => ?_⟩
  · by_cases hs' : s' = s
    · subst hs'
      exact hs ▸ mem_append_left _ hc
    · exact hne s' hs' ▸ hc
  by_cases hs' : s' = s
  · subst hs'
    rw [hs, mem_append] at hc
    exact hc.imp_right fun hc => hdisk ▸ mem_entries hc
  · exact .inl (hne s' hs' ▸ hc)

/-- What a visit of the series `s`, the next one, does. -/
structure Visits (A : RefSource) (enc : OOOEncoding V) (s : ℕ) (st st' : State V) : Prop where
  todo_eq : st.todo = s :: st'.todo
  /-- The chunks of other series are not touched. -/
  frame : ∀ s' ≠ s, st'.mmapped s' = st.mmapped s'
  notes : st.ch.Notes s (st'.mmapped s) st'.ch
  sees_iff : ∀ s' c, Sees A enc s' c st .visit ↔ s' = s ∧ c ∈ st'.mmapped s

lemma lastRef_mem {refs : List ℕ} (hrefs : ∀ r ∈ refs, ∃ c ∈ o.oooMmappedChunks, c.ref = r) :
    lastRef refs o = 0 ∨ ∃ c ∈ o.oooMmappedChunks, c.ref = lastRef refs o := by
  have hlast : ∀ rs : List ℕ, (∀ r ∈ rs, ∃ c ∈ o.oooMmappedChunks, c.ref = r) →
      rs.getLast?.getD 0 = 0 ∨ ∃ c ∈ o.oooMmappedChunks, c.ref = rs.getLast?.getD 0 := by
    intro rs hrs
    cases hr : rs.getLast? with
    | none => exact .inl rfl
    | some r => exact .inr (hrs r (mem_of_getLast? hr))
  apply hlast
  split_ifs with hempty
  · intro r hr
    rw [mem_toList, map_eq_some_iff] at hr
    obtain ⟨c, hc, rfl⟩ := hr
    exact ⟨c, mem_of_getLast? hc, rfl⟩
  · exact hrefs

/-- A visit of a series without out-of-order data changes nothing; otherwise the newest ref is
noted. -/
lemma step_visit (h : step A enc oooCapMax st .visit = some st') :
    ∃ s, Visits A enc s st st' ∧ Grows A st st' ∧
      ((st.ooo s = none ∧ st'.ch = st.ch) ∨
        ∃ o, st.ooo s = some o ∧ ∃ ref,
          ref = lastRef (mmapCurrentOOOHeadChunk A enc s o st.disk).1
            (mmapCurrentOOOHeadChunk A enc s o st.disk).2.1 ∧
          (ref = 0 ∨ ∃ c ∈ st'.mmapped s, c.ref = ref) ∧
          st'.ch.lastMmapRef = (st.ch.noteRef ref).lastMmapRef ∧
          (st'.ch.lastSeq, st'.ch.lastOff) =
            ((st.ch.noteRef ref).lastSeq, (st.ch.noteRef ref).lastOff)) := by
  dsimp only [step] at h
  cases htodo : st.todo with
  | nil => simp [htodo] at h
  | cons s todo =>
    refine ⟨s, ?_⟩
    cases ho : st.ooo s with
    | none =>
      simp only [htodo, ho, some.injEq] at h
      subst h
      refine ⟨⟨htodo, fun _ _ => rfl, ⟨by simp [ho], by simp [ho], by simp [ho]⟩, ?_⟩,
        ⟨le_rfl, fun _ _ => id, fun _ _ => .inl⟩, .inl ⟨rfl, rfl⟩⟩
      intro s' c
      simp only [Sees, htodo, head?_cons, some.injEq, State.mmapped, ho, elim_none, not_mem_nil,
        and_false, iff_false]
      rintro ⟨rfl, o, ho', -⟩
      rw [ho] at ho'
      cases ho'
    | some o =>
      obtain ⟨refs, o', disk', hmmap, -, hspec⟩ := mmapCurrentOOOHeadChunk_spec A enc s o st.disk
      simp only [htodo, ho, hmmap, some.injEq] at h
      subst h
      obtain ⟨hnotes, hlast, hsame⟩ := OOOCompactionHead.noteSeries_spec
        (st.ch.noteRef (lastRef refs o')) s o'.oooMmappedChunks
      obtain ⟨hpostings, hmint, hmaxt⟩ := st.ch.noteRef_same (lastRef refs o')
      have hs : State.mmapped
          ⟨update st.ooo s (some o'), disk', todo,
            (st.ch.noteRef (lastRef refs o')).noteSeries s o'.oooMmappedChunks⟩ s =
            o'.oooMmappedChunks := by
        simp
      refine ⟨⟨htodo, fun s' hs' => by simp [hs'], ?_, fun s' c => ?_⟩,
        .of_mmaps hspec (by simp [ho]) rfl, .inr ⟨o, rfl, lastRef refs o', ?_, ?_, hlast, hsame⟩⟩
      · rw [hs]
        exact ⟨hpostings ▸ hnotes.postings, hmint ▸ hnotes.mint, hmaxt ▸ hnotes.maxt⟩
      · rw [hs]
        simp only [Sees, htodo, head?_cons, some.injEq]
        constructor
        · rintro ⟨rfl, o₁, ho₁, hc⟩
          obtain rfl : o = o₁ := some.inj (ho.symm.trans ho₁)
          rw [hmmap] at hc
          exact ⟨rfl, hc⟩
        · rintro ⟨rfl, hc⟩
          exact ⟨rfl, o, ho, by rwa [hmmap]⟩
      · rw [hmmap]
      rw [hs]
      apply lastRef_mem
      rw [hspec.refs_eq, hspec.mmapped_eq]
      intro r hr
      obtain ⟨c, hc, rfl⟩ := mem_map.1 hr
      exact ⟨c, mem_append_right _ hc, rfl⟩

variable (h : step A enc oooCapMax st a = some st')
include h

/-- The other steps do not touch the walk. -/
lemma step_of_ne_visit (ha : a ≠ .visit) :
    Grows A st st' ∧ st'.todo = st.todo ∧ st'.ch = st.ch := by
  cases a with
  | insert s t v =>
    cases h
    obtain ⟨chks, hspec⟩ := insert_spec A enc oooCapMax s t v (st.ooo s) st.disk
    refine ⟨.of_mmaps hspec ?_ rfl, rfl, rfl⟩
    cases ho : st.ooo s <;> simp [ho]
  | write =>
    cases h
    exact ⟨⟨by simp, fun _ _ => id, fun _ _ => .inl⟩, rfl, rfl⟩
  | visit => exact absurd rfl ha

lemma step_grows : Grows A st st' := by
  by_cases ha : a = .visit
  · subst ha
    obtain ⟨s, -, hgrows, -⟩ := step_visit h
    exact hgrows
  · exact (step_of_ne_visit h ha).1

omit h

/-- Every step keeps the chunks of all series. -/
lemma run_mono {as : List (Action V)} (h : run (step A enc oooCapMax) st as = some st')
    {c : MmappedChunk} (hc : c ∈ st.mmapped s) : c ∈ st'.mmapped s :=
  run_invariant (P := fun st => c ∈ st.mmapped s)
    (fun _ _ _ hc h => (step_grows h).mono s c hc) h hc

variable (halloc : Allocated A st)
include halloc

/-- The last ref that is noted after a visit of a series with out-of-order data. -/
lemma Allocated.step_lastMmapRef {ref : ℕ}
    (hlast : ch'.lastMmapRef = (st.ch.noteRef ref).lastMmapRef) :
    ch'.lastMmapRef = max st.ch.lastMmapRef ref := by
  rw [hlast, (OOOCompactionHead.noteRef_spec halloc.last_eq ref).1]

lemma Allocated.step (h : step A enc oooCapMax st a = some st') : Allocated A st' := by
  have hgrows := step_grows h
  have hle := A.strictMono.monotone hgrows.disk
  have hpos : ∀ s, ∀ c ∈ st'.mmapped s, 0 < c.ref := by
    intro s c hc
    obtain hc | hc := hgrows.fresh s c hc
    · exact halloc.pos s c hc
    · exact (A.ref_pos _).trans_le hc.1
  have hlt : ∀ s, ∀ c ∈ st'.mmapped s, c.ref < A.ref st'.disk.length := by
    intro s c hc
    obtain hc | hc := hgrows.fresh s c hc
    · exact (halloc.lt s c hc).trans_le hle
    · exact hc.2
  have hlast := halloc.last_lt.trans_le hle
  by_cases ha : a = .visit
  · subst ha
    obtain ⟨s, -, -, ⟨-, hch⟩ | ⟨o, -, ref, -, href, hnoted, hsame⟩⟩ := step_visit h
    · exact ⟨hpos, hlt, hch ▸ hlast, hch ▸ halloc.last_eq⟩
    refine ⟨hpos, hlt, ?_, ?_⟩
    · rw [halloc.step_lastMmapRef hnoted]
      obtain rfl | ⟨c, hc, rfl⟩ := href
      · simpa using hlast
      · exact max_lt hlast (hlt s c hc)
    · rw [hsame, (OOOCompactionHead.noteRef_spec halloc.last_eq ref).2, hnoted]
  · obtain ⟨-, -, hch⟩ := step_of_ne_visit h ha
    exact ⟨hpos, hlt, hch ▸ hlast, hch ▸ halloc.last_eq⟩

lemma Allocated.lastMmapRef_le (h : OOOCompaction.step A enc oooCapMax st a = some st') :
    st.ch.lastMmapRef ≤ st'.ch.lastMmapRef := by
  by_cases ha : a = .visit
  · subst ha
    obtain ⟨s, -, -, ⟨-, hch⟩ | ⟨o, -, ref, -, -, hnoted, -⟩⟩ := step_visit h
    · rw [hch]
    · rw [halloc.step_lastMmapRef hnoted]
      exact le_max_left _ _
  · rw [(step_of_ne_visit h ha).2.2]

end Steps

/-! ### Whole walks -/

section Runs

variable {A : RefSource} {enc : OOOEncoding V} {oooCapMax : ℤ} {st₀ st st' : State V}
  {as : List (Action V)} {a : Action V} {s : ℕ} {c : MmappedChunk}

/-- If some step overtakes a ref, then at least this ref is noted in the end. -/
lemma le_lastMmapRef_of_overtakes {r : ℕ} (halloc : Allocated A st)
    (hsome : Transition.Sometime (step A enc oooCapMax) (Overtakes A enc r) st as)
    (hrun : run (step A enc oooCapMax) st as = some st') : r ≤ st'.ch.lastMmapRef := by
  induction as generalizing st with
  | nil => exact hsome.elim
  | cons a as ih =>
    obtain ⟨st₁, hstep, hrest⟩ := run_cons_eq_some.1 hrun
    obtain hnow | ⟨st₁', hstep', hlater⟩ := hsome
    · have hnoted : r ≤ st₁.ch.lastMmapRef := by
        cases a with
        | insert | write => exact hnow.elim
        | visit =>
          obtain ⟨s, o, hs, ho, hr⟩ := hnow
          obtain ⟨s', hvisits, -, hcases⟩ := step_visit hstep
          obtain rfl : s' = s := by simpa [hvisits.todo_eq] using hs
          obtain ⟨hnone, -⟩ | ⟨o', ho', ref, hrefeq, -, hlast, -⟩ := hcases
          · simp [ho] at hnone
          obtain rfl : o' = o := by simpa [ho] using ho'.symm
          rw [halloc.step_lastMmapRef hlast, hrefeq]
          exact hr.trans (le_max_right _ _)
      -- The last ref only grows.
      refine (run_invariant
        (P := fun st => Allocated A st ∧ r ≤ st.ch.lastMmapRef) ?_ hrest
        ⟨halloc.step hstep, hnoted⟩).2
      rintro st a st' ⟨halloc, hle⟩ hstep
      exact ⟨halloc.step hstep, hle.trans (halloc.lastMmapRef_le hstep)⟩
    · obtain rfl : st₁' = st₁ := some.inj (hstep'.symm.trans hstep)
      exact ih (halloc.step hstep) hlater hrest

/-- What is overtaken stays so when the run goes on. -/
lemma Overtaken.snoc (h : Overtaken A enc oooCapMax st₀ as s c) :
    Overtaken A enc oooCapMax st₀ (as ++ [a]) s c := by
  obtain ⟨as₁, b, as₂, st₁, st₂, rfl, hrun, hlate, hstep, hsome⟩ := h
  exact ⟨as₁, b, as₂ ++ [a], st₁, st₂, by simp, hrun, hlate, hstep, hsome.append [a]⟩

variable (A enc oooCapMax st₀ as)

/-- A chunk was written too late for the walk. -/
def WrittenLate (s : ℕ) (c : MmappedChunk) : Prop :=
  ∃ as₁ a as₂ st₁ st₂, as = as₁ ++ a :: as₂ ∧ run (step A enc oooCapMax) st₀ as₁ = some st₁ ∧
    Late A enc oooCapMax s c st₁ a ∧ step A enc oooCapMax st₁ a = some st₂

/-- The invariant of the walk: a chunk is of a series that will be visited, or it is visible, or it
was written too late and is newer than all that is noted, or it was overtaken. -/
def Accounted (st : State V) : Prop :=
  ∀ s, ∀ c ∈ st.mmapped s, s ∈ st.todo ∨ Visible st.ch s c ∨
    WrittenLate A enc oooCapMax st₀ as s c ∧ st.ch.lastMmapRef < c.ref ∨
    Overtaken A enc oooCapMax st₀ as s c

variable {A enc oooCapMax st₀ as}

lemma WrittenLate.snoc (h : WrittenLate A enc oooCapMax st₀ as s c) :
    WrittenLate A enc oooCapMax st₀ (as ++ [a]) s c := by
  obtain ⟨as₁, b, as₂, st₁, st₂, rfl, hlate⟩ := h
  exact ⟨as₁, b, as₂ ++ [a], st₁, st₂, by simp, hlate⟩

/-- A visit overtakes a chunk that was written too late. -/
lemma WrittenLate.overtaken (h : WrittenLate A enc oooCapMax st₀ as s c)
    (hrun : run (step A enc oooCapMax) st₀ as = some st) (hover : Overtakes A enc c.ref st a) :
    Overtaken A enc oooCapMax st₀ (as ++ [a]) s c := by
  obtain ⟨as₁, b, as₂, st₁, st₂, rfl, hrun₁, hlate, hstep⟩ := h
  refine ⟨as₁, b, as₂ ++ [a], st₁, st₂, by simp, hrun₁, hlate, hstep, ?_⟩
  obtain ⟨st₁', hrun₁', hrest⟩ := run_append.1 hrun
  obtain rfl : st₁' = st₁ := some.inj (hrun₁'.symm.trans hrun₁)
  obtain ⟨st₂', hstep', hrest⟩ := run_cons_eq_some.1 hrest
  obtain rfl : st₂' = st₂ := some.inj (hstep'.symm.trans hstep)
  exact .of_run hrest (.inl hover)

lemma mem_of_late (hlate : Late A enc oooCapMax s c st a)
    (hstep : step A enc oooCapMax st a = some st') : c ∈ st'.mmapped s := by
  cases a with
  | insert s' t v =>
    obtain ⟨rfl, -, -, hc⟩ := hlate
    cases hstep
    simpa using hc
  | write | visit => exact hlate.elim

/-- A chunk that a step other than a visit writes for a series to which the walk will not come. -/
lemma late_of_step (hstep : step A enc oooCapMax st a = some st') (ha : a ≠ .visit)
    (hs : s ∉ st.todo) (hold : c ∉ st.mmapped s) (hc : c ∈ st'.mmapped s) :
    Late A enc oooCapMax s c st a := by
  cases a with
  | insert s' t v =>
    cases hstep
    by_cases hs' : s = s'
    · subst hs'
      exact ⟨rfl, hs, hold, by simpa using hc⟩
    · exact absurd (by simpa [update_of_ne hs'] using hc) hold
  | write =>
    cases hstep
    exact absurd hc hold
  | visit => exact absurd rfl ha

lemma Accounted.snoc (hacc : Accounted A enc oooCapMax st₀ as st) (halloc : Allocated A st)
    (hrun : run (step A enc oooCapMax) st₀ as = some st)
    (hstep : step A enc oooCapMax st a = some st') :
    Accounted A enc oooCapMax st₀ (as ++ [a]) st' := by
  intro s c hc
  by_cases ha : a = .visit
  · subst ha
    obtain ⟨s', hvisits, -, hcases⟩ := step_visit hstep
    by_cases hs : s = s'
    · subst hs
      exact .inr (.inl (hvisits.notes.visible_of_mem hc))
    rw [hvisits.frame s hs] at hc
    obtain htodo | hvisible | ⟨hlate, hlt⟩ | hover := hacc s c hc
    · rw [hvisits.todo_eq] at htodo
      exact .inl (mem_of_ne_of_mem hs htodo)
    · exact .inr (.inl (hvisits.notes.visible hvisible))
    · by_cases hlt' : st'.ch.lastMmapRef < c.ref
      · exact .inr (.inr (.inl ⟨hlate.snoc, hlt'⟩))
      · -- The visit notes a newer chunk.
        refine .inr (.inr (.inr (hlate.overtaken hrun ?_)))
        obtain ⟨-, hch⟩ | ⟨o, ho, ref, hrefeq, -, hlast, -⟩ := hcases
        · exact absurd (hch ▸ hlt) hlt'
        rw [halloc.step_lastMmapRef hlast] at hlt'
        refine ⟨s', o, by simp [hvisits.todo_eq], ho, hrefeq ▸ ?_⟩
        omega
    · exact .inr (.inr (.inr hover.snoc))
  · obtain ⟨hgrows, htodo, hch⟩ := step_of_ne_visit hstep ha
    rw [htodo, hch]
    by_cases hold : c ∈ st.mmapped s
    · obtain h | h | ⟨h, hlt⟩ | h := hacc s c hold
      · exact .inl h
      · exact .inr (.inl h)
      · exact .inr (.inr (.inl ⟨h.snoc, hlt⟩))
      · exact .inr (.inr (.inr h.snoc))
    · by_cases hs : s ∈ st.todo
      · exact .inl hs
      · have hfresh := (hgrows.fresh s c hc).resolve_left hold
        exact .inr (.inr (.inl ⟨⟨as, a, [], st, st', rfl, hrun, late_of_step hstep ha hs hold hc,
          hstep⟩, halloc.last_lt.trans_le hfresh.1⟩))

lemma accounted_of_run (halloc : Allocated A st₀) (hstart : Accounted A enc oooCapMax st₀ [] st₀)
    (hrun : run (step A enc oooCapMax) st₀ as = some st) :
    Allocated A st ∧ Accounted A enc oooCapMax st₀ as st := by
  induction as using reverseRecOn generalizing st with
  | nil =>
    cases hrun
    exact ⟨halloc, hstart⟩
  | append_singleton as a ih =>
    obtain ⟨st₁, hrun₁, hlast⟩ := run_append.1 hrun
    obtain ⟨st₂, hstep, hnil⟩ := run_cons_eq_some.1 hlast
    cases hnil
    obtain ⟨halloc₁, hacc₁⟩ := ih hrun₁
    exact ⟨halloc₁.step hstep, hacc₁.snoc halloc₁ hrun₁ hstep⟩

/-- What is noted in a run is what the visits see. -/
lemma run_notes (hrun : run (step A enc oooCapMax) st as = some st') :
    (∀ s, s ∈ st'.ch.postings ↔ s ∈ st.ch.postings ∨ ∃ c, Seen A enc oooCapMax st as s c) ∧
      (∀ m, st'.ch.mint ≤ m ↔
        st.ch.mint ≤ m ∨ ∃ s c, Seen A enc oooCapMax st as s c ∧ c.minTime ≤ m) ∧
      ∀ m, m ≤ st'.ch.maxt ↔
        m ≤ st.ch.maxt ∨ ∃ s c, Seen A enc oooCapMax st as s c ∧ m ≤ c.maxTime := by
  induction as generalizing st with
  | nil =>
    cases hrun
    simp [Seen, Sometime]
  | cons a as ih =>
    obtain ⟨st₁, hstep, hrest⟩ := run_cons_eq_some.1 hrun
    obtain ⟨hpostings, hmint, hmaxt⟩ := ih hrest
    have hseen : ∀ s c, Seen A enc oooCapMax st (a :: as) s c ↔
        Sees A enc s c st a ∨ Seen A enc oooCapMax st₁ as s c := by
      intro s c
      simp [Seen, Sometime, hstep]
    by_cases ha : a = .visit
    · subst ha
      obtain ⟨s, hvisits, -, -⟩ := step_visit hstep
      refine ⟨fun s' => ?_, fun m => ?_, fun m => ?_⟩
      · rw [hpostings, hvisits.notes.postings]
        simp only [hseen, hvisits.sees_iff, exists_or, exists_and_left]
        tauto
      · rw [hmint, hvisits.notes.mint]
        simp only [hseen, hvisits.sees_iff, or_and_right, exists_or, and_assoc, exists_and_left,
          exists_eq_left]
        exact or_assoc
      · rw [hmaxt, hvisits.notes.maxt]
        simp only [hseen, hvisits.sees_iff, or_and_right, exists_or, and_assoc, exists_and_left,
          exists_eq_left]
        exact or_assoc
    · obtain ⟨-, -, hch⟩ := step_of_ne_visit hstep ha
      have hsees : ∀ s c, ¬Sees A enc s c st a := by
        intro s c hsees
        cases a with
        | insert | write => exact hsees
        | visit => exact ha rfl
      simp only [hseen, hsees, false_or, ← hch]
      exact ⟨hpostings, hmint, hmaxt⟩

/-- What is visible after a walk is what its visits have covered. -/
lemma visible_iff_covered {ooo : ℕ → Option (MemSeriesOOOFields V)} {disk : OOODisk V}
    {postings : List ℕ}
    (hrun : run (step A enc oooCapMax) (State.start ooo disk postings) as = some st) :
    Visible st.ch s c ↔ Covered A enc oooCapMax (State.start ooo disk postings) as s c := by
  obtain ⟨hpostings, hmint, hmaxt⟩ := run_notes hrun
  rw [Visible, hpostings, hmint, hmaxt]
  simp only [State.start, not_mem_nil, false_or]
  exact ⟨fun ⟨h₁, h₂, h₃⟩ => ⟨h₁, h₂, h₃⟩, fun ⟨h₁, h₂, h₃⟩ => ⟨h₁, h₂, h₃⟩⟩

/-- What the truncation removes has refs up to the last one. -/
lemma not_greaterThan_of_not_mem_truncate {r : ℕ} (hc : c ∈ cs)
    (hremoved : c ∉ truncate r cs) : ¬greaterThan c.ref r := by
  rw [← takeWhile_append_dropWhile (p := fun c => !greaterThan c.ref r) (l := cs), mem_append] at hc
  obtain hc | hc := hc
  · have htake := mem_takeWhile_imp hc
    simpa only [Bool.not_eq_true', Bool.not_eq_true] using htake
  · exact absurd hc hremoved

lemma losesNothing_iff_visible :
    LosesNothing st ↔ ∀ s, ∀ c ∈ st.mmapped s, c.ref ≤ st.ch.lastMmapRef → Visible st.ch s c := by
  constructor
  · intro h s c hc hle
    exact h.visible s c hc (by simpa using hle)
  · intro h
    refine ⟨fun s c hc hle => h s c hc (by simpa using hle), fun s c hc hremoved => h s c hc ?_⟩
    simpa using not_greaterThan_of_not_mem_truncate hc hremoved

end Runs

/-! ### Main result -/

/-- **A compaction of out-of-order data loses nothing** exactly if the visits of the walk cover each
chunk that it overtakes. The series that have chunks when the walk starts are in its list. -/
theorem newOOOCompactionHead_loses_nothing_iff (A : RefSource) (enc : OOOEncoding V) (oooCapMax : ℤ)
    (ooo : ℕ → Option (MemSeriesOOOFields V)) (disk : OOODisk V) (postings : List ℕ)
    (hrefs : ∀ s, ∀ c ∈ (State.start ooo disk postings).mmapped s,
      s ∈ postings ∧ 0 < c.ref ∧ c.ref < A.ref disk.length) (as : List (Action V)) (st : State V)
    (hrun : run (step A enc oooCapMax) (State.start ooo disk postings) as = some st)
    (hdone : st.todo = []) :
    LosesNothing st ↔ ∀ s c, Overtaken A enc oooCapMax (State.start ooo disk postings) as s c →
      Covered A enc oooCapMax (State.start ooo disk postings) as s c := by
  have halloc₀ : Allocated A (State.start ooo disk postings) :=
    ⟨fun s c hc => (hrefs s c hc).2.1, fun s c hc => (hrefs s c hc).2.2, A.ref_pos _,
      by simp [State.start, unpackRef]⟩
  have hstart : Accounted A enc oooCapMax (State.start ooo disk postings) []
      (State.start ooo disk postings) :=
    fun s c hc => .inl (hrefs s c hc).1
  obtain ⟨halloc, hacc⟩ := accounted_of_run halloc₀ hstart hrun
  simp only [losesNothing_iff_visible, ← visible_iff_covered hrun]
  constructor
  · rintro h s c ⟨as₁, a, as₂, st₁, st₂, rfl, hrun₁, hlate, hstep, hsome⟩
    obtain ⟨st₁', hrun₁', hrest⟩ := run_append.1 hrun
    obtain rfl : st₁' = st₁ := some.inj (hrun₁'.symm.trans hrun₁)
    obtain ⟨st₂', hstep', hrun₂⟩ := run_cons_eq_some.1 hrest
    obtain rfl : st₂' = st₂ := some.inj (hstep'.symm.trans hstep)
    have halloc₂ := (accounted_of_run halloc₀ hstart hrun₁).1.step hstep
    exact h s c (run_mono hrun₂ (mem_of_late hlate hstep))
      (le_lastMmapRef_of_overtakes halloc₂ hsome hrun₂)
  · intro h s c hc hle
    obtain htodo | hvisible | ⟨-, hlt⟩ | hover := hacc s c hc
    · simp [hdone] at htodo
    · exact hvisible
    · omega
    · exact h s c hover

/-! ### A walk that loses a chunk -/

namespace Example

def refs : RefSource := .firstFile

/-- All samples in one chunk. -/
def oneChunk : OOOEncoding Unit where
  toEncodedChunks ss :=
    match ss.head?, ss.getLast? with
    | some s, some s' => [⟨ss, s.1, s'.1⟩]
    | _, _ => []
  flatMap_samples ss := by
    cases hlast : ss.getLast? with
    | none => simp [List.getLast?_eq_none_iff.1 hlast]
    | some s' =>
      cases ss with
      | nil => simp at hlast
      | cons s ss => simp

end Example

open Example in
/-- The first series has no out-of-order samples when the walk visits it. It gets two, and the first
is written to disk, before the walk comes to the second series and notes a greater ref. -/
theorem newOOOCompactionHead_loses_chunk :
    ∃ st, run (step refs oneChunk 1) (State.start (fun _ => none) [] [1, 2])
        [.visit, .insert 1 10 (), .insert 1 20 (), .insert 2 30 (), .visit] = some st ∧
      st.todo = [] ∧ ¬LosesNothing st := by
  refine ⟨_, rfl, rfl, fun h => ?_⟩
  have hlisted := (h.visible 1 ⟨refs.ref 0, 10, 10⟩ (by decide) (by decide)).1
  exact absurd hlisted (by decide)

open Example in
/-- The walk has passed the first series when a chunk at 15 is written for it, and overtakes it with
the second series. But it has seen chunks of the first one at 10 and 20. -/
theorem newOOOCompactionHead_loses_nothing_covered :
    let as : List (Action Unit) := [.insert 1 10 (), .insert 1 20 (), .visit, .insert 1 15 (),
      .insert 1 12 (), .insert 2 30 (), .visit]
    ∃ st, run (step refs oneChunk 1) (State.start (fun _ => none) [] [1, 2]) as = some st ∧
      st.todo = [] ∧ LosesNothing st ∧
      Overtaken refs oneChunk 1 (State.start (fun _ => none) [] [1, 2]) as 1 ⟨refs.ref 2, 15, 15⟩ ∧
      Covered refs oneChunk 1 (State.start (fun _ => none) [] [1, 2]) as 1
        ⟨refs.ref 2, 15, 15⟩ := by
  intro as
  have hloses : ∀ st, run (step refs oneChunk 1)
    (State.start (fun _ => none) [] [1, 2]) as = some st →
      LosesNothing st := by
    intro st hrun
    rw [losesNothing_iff_visible]
    rintro s c hc -
    cases hrun
    by_cases h1 : s = 1
    · subst h1
      have hmmapped : c ∈ [⟨refs.ref 0, 10, 10⟩, ⟨refs.ref 1, 20, 20⟩, ⟨refs.ref 2, 15, 15⟩] := hc
      revert hmmapped
      revert c
      decide
    by_cases h2 : s = 2
    · subst h2
      have hmmapped : c ∈ [⟨refs.ref 3, 30, 30⟩] := hc
      revert hmmapped
      revert c
      decide
    · simp [update_of_ne h1, update_of_ne h2, State.start] at hc
  have hover : Overtaken refs oneChunk 1 (State.start (fun _ => none) [] [1, 2]) as 1
      ⟨refs.ref 2, 15, 15⟩ :=
    ⟨as.take 4, .insert 1 12 (), as.drop 5, _, _, rfl, rfl,
    ⟨rfl, by decide, by decide, by decide⟩, rfl,
      .inr ⟨_, rfl, .inl ⟨2, _, rfl, rfl, by decide⟩⟩⟩
  refine ⟨_, rfl, rfl, hloses _ rfl, hover, ?_⟩
  exact (newOOOCompactionHead_loses_nothing_iff refs oneChunk 1 (fun _ => none) [] [1, 2]
    (fun _ _ hc => absurd hc not_mem_nil) as _ rfl rfl).1 (hloses _ rfl) 1 _ hover

end Prometheus.Tsdb.OOOCompaction
