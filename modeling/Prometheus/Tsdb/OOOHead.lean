import Prometheus.Chunks.Ref
import Prometheus.Tsdb.HeadChunks

/-!
# Out-of-order chunks of many series

The out-of-order part of the head: `insert`, `mmapCurrentOOOHeadChunk` and the out-of-order part of
`truncateChunksBefore` of a `memSeries`, where all series write to one chunk disk mapper. What these
functions return is part of the model: the log of out-of-order samples is made of it.

The chunk disk mapper numbers its writes, and the refs it hands out grow with these numbers
(`RefSource`). The disk is the list of what was written: an out-of-order chunk of some series, or
something else.
-/

namespace Prometheus.Tsdb

open Chunks (greaterThan)

variable {V : Type}

/-! ### Refs -/

/-- The ref of each write. Files are numbered from one on. -/
structure RefSource where
  ref : ℕ → ℕ
  strictMono : StrictMono ref
  pos : 0 < ref 0

/-- One write takes one byte, in the first file. -/
def RefSource.firstFile : RefSource where
  ref n := 2 ^ 32 + 8 + n
  strictMono _ _ h := Nat.add_lt_add_left h _
  pos := by decide

lemma RefSource.ref_pos (A : RefSource) (n : ℕ) : 0 < A.ref n :=
  A.pos.trans_le (A.strictMono.monotone (Nat.zero_le n))

/-- What the samples of an out-of-order chunk are encoded to: chunks with the samples in their
order. -/
structure OOOEncoding (V : Type) where
  toEncodedChunks : List (ℤ × V) → List (OOOHeadChunk V)
  flatMap_samples : ∀ ss, (toEncodedChunks ss).flatMap OOOHeadChunk.samples = ss

/-- What was written: an out-of-order chunk of a series, or something else. -/
abbrev OOODisk (V : Type) := List (Option (ℕ × OOOHeadChunk V))

namespace OOOHead

variable (A : RefSource) (enc : OOOEncoding V)

/-! ### The model -/

/-- The loop of `mmapCurrentOOOHeadChunk` over the encoded chunks of the series `s`. -/
def mmapLoop (s : ℕ) : List (OOOHeadChunk V) → MemSeriesOOOFields V → OOODisk V →
    List ℕ × MemSeriesOOOFields V × OOODisk V
  | [], o, disk => ([], o, disk)
  | chk :: chks, o, disk =>
    -- Too many OOO chunks, dropping data.
    if o.oooMmappedChunks.length ≥ oooChunkIDMask - 1 then ([], o, disk)
    else
      let chunkRef := A.ref disk.length
      let (chunkRefs, o, disk) := mmapLoop s chks
        { o with
          oooMmappedChunks := o.oooMmappedChunks ++ [⟨chunkRef, chk.minTime, chk.maxTime⟩] }
        (disk ++ [some (s, chk)])
      (chunkRef :: chunkRefs, o, disk)

def mmapCurrentOOOHeadChunk (s : ℕ) (o : MemSeriesOOOFields V) (disk : OOODisk V) :
    List ℕ × MemSeriesOOOFields V × OOODisk V :=
  match o.oooHeadChunk with
  | none => ([], o, disk)
  | some c =>
    let (chunkRefs, o, disk) := mmapLoop A s (enc.toEncodedChunks c.samples) o disk
    (chunkRefs, { o with oooHeadChunk := none }, disk)

/-- The chunk that a sample is inserted into, and how the series and the disk are then. -/
structure Target (V : Type) where
  c : OOOHeadChunk V
  chunkCreated : Bool
  mmapRefs : List ℕ
  ooo : MemSeriesOOOFields V
  disk : OOODisk V

def cutNewOOOHeadChunk (s : ℕ) (mint : ℤ) (o : MemSeriesOOOFields V)
    (disk : OOODisk V) : Target V :=
  let (ref, o, disk) := mmapCurrentOOOHeadChunk A enc s o disk
  ⟨⟨[], mint, GoInt.minInt64⟩, true, ref, o, disk⟩

variable (oooCapMax : ℤ)

/-- The first part of `insert`: there is a new chunk if there is none or if it is full. -/
def target (s : ℕ) (t : ℤ) (o : MemSeriesOOOFields V) (disk : OOODisk V) : Target V :=
  match o.oooHeadChunk with
  | none => cutNewOOOHeadChunk A enc s t o disk
  | some c =>
    if c.samples.length = oooCapMax then cutNewOOOHeadChunk A enc s t o disk
    else ⟨c, false, [], o, disk⟩

/-- The results of `insert`, and what it leaves. -/
structure Inserted (V : Type) where
  inserted : Bool
  chunkCreated : Bool
  mmapRefs : List ℕ
  ooo : MemSeriesOOOFields V
  disk : OOODisk V

def insert (s : ℕ) (t : ℤ) (v : V) (ooo : Option (MemSeriesOOOFields V))
    (disk : OOODisk V) : Inserted V :=
  let r := target A enc oooCapMax s t (ooo.getD ⟨[], none, 0⟩) disk
  { inserted := (oooInsert r.c.samples t v).isSome
    chunkCreated := r.chunkCreated
    mmapRefs := r.mmapRefs
    ooo := { r.ooo with
      oooHeadChunk := some (SeriesChunks.insertSample r.chunkCreated t v r.c) }
    disk := r.disk }

/-- The loop over the out-of-order chunks in `truncateChunksBefore`: what is left of them. -/
def truncate (minOOOMmapRef : ℕ) (cs : List MmappedChunk) : List MmappedChunk :=
  cs.dropWhile fun c => !greaterThan c.ref minOOOMmapRef

/-! ### What is written -/

variable {A enc}

/-- The chunks that fit: there is a limit to the number of chunks of a series. -/
def fitting (o : MemSeriesOOOFields V) (chks : List (OOOHeadChunk V)) : List (OOOHeadChunk V) :=
  chks.take (oooChunkIDMask - 1 - o.oooMmappedChunks.length)

/-- The entries for chunks that are written from the write `n` on. -/
def entries (A : RefSource) (n : ℕ) (chks : List (OOOHeadChunk V)) : List MmappedChunk :=
  chks.mapIdx fun i chk => ⟨A.ref (n + i), chk.minTime, chk.maxTime⟩

lemma mmapLoop_eq (s : ℕ) (chks : List (OOOHeadChunk V)) (o : MemSeriesOOOFields V)
    (disk : OOODisk V) :
    mmapLoop A s chks o disk =
      ((entries A disk.length (fitting o chks)).map MmappedChunk.ref, { o with
          oooMmappedChunks := o.oooMmappedChunks ++ entries A disk.length (fitting o chks) },
        disk ++ (fitting o chks).map fun chk => some (s, chk)) := by
  induction chks generalizing o disk with
  | nil => simp [mmapLoop, fitting, entries]
  | cons chk chks ih =>
    rw [mmapLoop]
    split_ifs with hfull
    · have hnil : fitting o (chk :: chks) = [] := by
        rw [fitting, Nat.sub_eq_zero_of_le (by omega), List.take_zero]
      simp [hnil, entries]
    -- One chunk fits, and the others are written one position later.
    set o' : MemSeriesOOOFields V :=
      { o with
        oooMmappedChunks :=
          o.oooMmappedChunks ++ [⟨A.ref disk.length, chk.minTime, chk.maxTime⟩] } with ho'
    have hfit : fitting o (chk :: chks) = chk :: fitting o' chks := by
      have hlen : o'.oooMmappedChunks.length = o.oooMmappedChunks.length + 1 := by simp [ho']
      rw [fitting, fitting, hlen, ← List.take_succ_cons]
      congr 1
      omega
    have hentries : entries A disk.length (fitting o (chk :: chks)) =
        ⟨A.ref disk.length, chk.minTime, chk.maxTime⟩ ::
          entries A (disk ++ [some (s, chk)]).length (fitting o' chks) := by
      rw [hfit, entries, List.mapIdx_cons, entries]
      simp [Nat.add_assoc, Nat.add_comm 1]
    rw [hentries, hfit]
    simp [ih, ho']

lemma mem_entries {n : ℕ} {chks : List (OOOHeadChunk V)} {c : MmappedChunk}
    (h : c ∈ entries A n chks) : A.ref n ≤ c.ref ∧ c.ref < A.ref (n + chks.length) := by
  rw [entries, List.mem_mapIdx] at h
  obtain ⟨i, hi, rfl⟩ := h
  exact ⟨A.strictMono.monotone (Nat.le_add_right n i), A.strictMono (by omega)⟩

/-- What a call adds to the chunks of a series: entries for what it writes, with their refs. -/
structure Mmaps (A : RefSource) (s : ℕ) (o : MemSeriesOOOFields V) (disk : OOODisk V)
    (chks : List (OOOHeadChunk V)) (refs : List ℕ) (o' : MemSeriesOOOFields V) (disk' : OOODisk V) :
    Prop where
  mmapped_eq : o'.oooMmappedChunks = o.oooMmappedChunks ++ entries A disk.length chks
  disk_eq : disk' = disk ++ chks.map fun chk => some (s, chk)
  refs_eq : refs = (entries A disk.length chks).map MmappedChunk.ref

/-- The chunks that a call writes. -/
def toWrite (enc : OOOEncoding V) (o : MemSeriesOOOFields V) : List (OOOHeadChunk V) :=
  match o.oooHeadChunk with
  | none => []
  | some c => fitting o (enc.toEncodedChunks c.samples)

variable (A enc)

lemma mmapCurrentOOOHeadChunk_spec (s : ℕ) (o : MemSeriesOOOFields V) (disk : OOODisk V) :
    ∃ refs o' disk', mmapCurrentOOOHeadChunk A enc s o disk = (refs, o', disk') ∧
      o'.oooHeadChunk = none ∧ Mmaps A s o disk (toWrite enc o) refs o' disk' := by
  unfold mmapCurrentOOOHeadChunk toWrite
  cases hc : o.oooHeadChunk with
  | none => exact ⟨[], o, disk, rfl, hc, by simp [entries], by simp, by simp [entries]⟩
  | some c =>
    simp only [mmapLoop_eq]
    exact ⟨_, _, _, rfl, rfl, rfl, rfl, rfl⟩

/-- Whether `insert` makes a new chunk. -/
def cuts (o : MemSeriesOOOFields V) : Bool :=
  o.oooHeadChunk.all fun c => c.samples.length = oooCapMax

lemma target_of_cuts {oooCapMax : ℤ} {o : MemSeriesOOOFields V} (h : cuts oooCapMax o) (s : ℕ)
    (t : ℤ) (disk : OOODisk V) :
    target A enc oooCapMax s t o disk = cutNewOOOHeadChunk A enc s t o disk := by
  unfold target
  cases hc : o.oooHeadChunk with
  | none => rfl
  | some c =>
    rw [cuts, hc, Option.all_some, decide_eq_true_eq] at h
    exact if_pos h

lemma target_of_not_cuts {oooCapMax : ℤ} {o : MemSeriesOOOFields V} (h : cuts oooCapMax o = false)
    (s : ℕ) (t : ℤ) (disk : OOODisk V) :
    ∃ c, o.oooHeadChunk = some c ∧ target A enc oooCapMax s t o disk = ⟨c, false, [], o, disk⟩ := by
  unfold target
  cases hc : o.oooHeadChunk with
  | none =>
    rw [cuts, hc] at h
    exact nomatch h
  | some c =>
    rw [cuts, hc, Option.all_some, decide_eq_false_iff_not] at h
    exact ⟨c, rfl, if_neg h⟩

lemma target_spec (s : ℕ) (t : ℤ) (o : MemSeriesOOOFields V) (disk : OOODisk V) :
    Mmaps A s o disk (if cuts oooCapMax o then toWrite enc o else [])
      (target A enc oooCapMax s t o disk).mmapRefs (target A enc oooCapMax s t o disk).ooo
      (target A enc oooCapMax s t o disk).disk := by
  cases hcuts : cuts oooCapMax o with
  | true =>
    obtain ⟨refs, o', disk', hmmap, -, hspec⟩ := mmapCurrentOOOHeadChunk_spec A enc s o disk
    rw [target_of_cuts A enc hcuts, cutNewOOOHeadChunk, hmmap]
    exact hspec
  | false =>
    obtain ⟨c, -, htarget⟩ := target_of_not_cuts A enc hcuts s t disk
    rw [htarget]
    exact ⟨by simp [entries], by simp, by simp [entries]⟩

lemma insert_spec (s : ℕ) (t : ℤ) (v : V) (ooo : Option (MemSeriesOOOFields V)) (disk : OOODisk V) :
    ∃ chks, Mmaps A s (ooo.getD ⟨[], none, 0⟩) disk chks
      (insert A enc oooCapMax s t v ooo disk).mmapRefs
      (insert A enc oooCapMax s t v ooo disk).ooo (insert A enc oooCapMax s t v ooo disk).disk := by
  have hspec := target_spec A enc oooCapMax s t (ooo.getD ⟨[], none, 0⟩) disk
  exact ⟨_, hspec.mmapped_eq, hspec.disk_eq, hspec.refs_eq⟩

end OOOHead

end Prometheus.Tsdb
