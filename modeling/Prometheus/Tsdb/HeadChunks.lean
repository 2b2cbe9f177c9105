import Prometheus.Lib.GoInt
import Prometheus.Lib.Search
import Prometheus.Lib.Window

/-!
# The chunks of a series in the head

A `memSeries` of `tsdb/head.go` has its in-order chunks in two containers: the older ones, which are
written to disk, in the slice `mmappedChunks`, and the newer ones in the linked list `headChunks`,
with the newest in front. Out-of-order samples are gathered in a chunk of their own, which is
encoded and written to disk when it is full.

The ID of a chunk is its position plus `firstChunkID`, which counts the chunks that have been
truncated. Readers pack the ID into a chunk ref, and may use the ref when the series has changed.
The IDs of out-of-order chunks are told apart by bit 23. So there are two spaces of IDs, and each of
them is a numbered window (`inOrder`, `outOfOrder`) that every operation changes step by step. What
an ID finds is what the window has under this number (`chunk_eq`, `oooChunk_eq`).

Every chunk carries the number of chunks created in its space before it, which the code does not
have: it says whether two chunks are the same one. Chunks hold their samples, not their encoding,
and when a new chunk is cut is left open.
-/

namespace Prometheus.Tsdb

open GoInt NumberedWindow List Option Window Nat

variable {V : Type}

/-! ### The model -/

structure MemChunk (V : Type) where
  /-- How many chunks were created before. -/
  serial : ℕ
  samples : List (ℤ × V)
  minTime : ℤ
  maxTime : ℤ
deriving DecidableEq

structure MmappedChunk where
  ref : ℕ
  minTime : ℤ
  maxTime : ℤ
deriving DecidableEq

structure OOOHeadChunk (V : Type) where
  samples : List (ℤ × V)
  minTime : ℤ
  maxTime : ℤ
deriving DecidableEq

structure MemSeriesOOOFields (V : Type) where
  oooMmappedChunks : List MmappedChunk
  oooHeadChunk : Option (OOOHeadChunk V)
  firstOOOChunkID : ℕ
deriving DecidableEq

/-- The chunks of a `memSeries`, with what the `chunkDiskMapper` has written for it. The refs of the
`chunkDiskMapper` are the positions in `disk`. -/
structure SeriesChunks (V : Type) where
  ref : ℕ
  mmappedChunks : List MmappedChunk
  headChunks : List (MemChunk V)
  firstChunkID : ℕ
  ooo : Option (MemSeriesOOOFields V)
  disk : List (MemChunk V)
  created : ℕ
  oooCreated : ℕ
deriving DecidableEq

inductive ChunkError
  | notFound
  | corruption
deriving DecidableEq

def oooChunkIDMask : ℕ := 1 <<< 23

/-- `NewHeadChunkRef`. Without a result, it panics. -/
def newHeadChunkRef (hsr chunkID : ℕ) : Option ℕ :=
  if hsr > 2 ^ 40 - 1 then none
  else if chunkID > 2 ^ 24 - 1 then none
  else some (hsr <<< 24 ||| chunkID)

/-- `HeadChunkRef.Unpack`. -/
def unpack (p : ℕ) : ℕ × ℕ :=
  (p >>> 24, ((p <<< 40) % 2 ^ 64) >>> 40)

def unpackHeadChunkRef (ref : ℕ) : ℕ × ℕ × Bool :=
  let (sid, cid) := unpack ref
  (sid, cid &&& (oooChunkIDMask - 1), cid &&& oooChunkIDMask != 0)

/-- `OOOChunk.Insert`, on the samples of the chunk. -/
def oooInsert (samples : List (ℤ × V)) (t : ℤ) (v : V) : Option (List (ℤ × V)) :=
  if samples.getLast?.all fun s => s.1 < t then some (samples ++ [(t, v)])
  else
    let i := BinarySearch.search samples.length fun i => samples[i]?.any fun s => t ≤ s.1
    match samples[i]? with
    | none => some (samples ++ [(t, v)])
    | some s => if s.1 = t then none else some (samples.take i ++ (t, v) :: samples.drop i)

namespace MemSeriesOOOFields

/-- `memSeries.oooHeadChunkID`. -/
def oooHeadChunkID (o : MemSeriesOOOFields V) (pos : ℕ) : ℕ :=
  (pos + o.firstOOOChunkID) ||| oooChunkIDMask

end MemSeriesOOOFields

namespace SeriesChunks

/-- A new `memSeries`. -/
def new (ref : ℕ) : SeriesChunks V where
  ref := ref
  mmappedChunks := []
  headChunks := []
  firstChunkID := 0
  ooo := none
  disk := []
  created := 0
  oooCreated := 0

def cutNewHeadChunk (mint : ℤ) (s : SeriesChunks V) : SeriesChunks V :=
  { s with
    headChunks := ⟨s.created, [], mint, minInt64⟩ :: s.headChunks
    created := s.created + 1 }

/-- `appendPreprocessor` and `histogramsAppendPreprocessor`, with the number of times that a new
chunk is cut for the sample. -/
def appendPreprocessor (t : ℤ) (cuts : ℕ) (s : SeriesChunks V) : Bool × SeriesChunks V :=
  if s.headChunks = [] ∧ s.mmappedChunks.getLast?.any fun c => c.maxTime ≥ t then
    -- Out of order sample. Sample timestamp is already in the mmapped chunks, so ignore it.
    (false, s)
  else
    let s := if s.headChunks = [] then s.cutNewHeadChunk t else s
    if s.headChunks.head?.any fun c => c.maxTime ≥ t then (false, s)
    else (true, (cutNewHeadChunk t)^[cuts] s)

/-- The appender of the newest chunk. -/
def appendSample (t : ℤ) (v : V) (s : SeriesChunks V) : SeriesChunks V :=
  match s.headChunks with
  | [] => s
  | c :: cs =>
    { s with
      headChunks :=
        ⟨c.serial, c.samples ++ [(t, v)], if c.samples = [] then t else c.minTime, t⟩ :: cs }

/-- `append`, `appendHistogram` and `appendFloatHistogram`. -/
def append (t : ℤ) (v : V) (cuts : ℕ) (s : SeriesChunks V) : SeriesChunks V :=
  match s.appendPreprocessor t cuts with
  | (false, s) => s
  | (true, s) => s.appendSample t v

/-- One turn of the loop of `mmapChunks`. -/
def mmapChunk (chk : MemChunk V) (s : SeriesChunks V) : SeriesChunks V :=
  { s with
    disk := s.disk ++ [chk]
    mmappedChunks := s.mmappedChunks ++ [⟨s.disk.length, chk.minTime, chk.maxTime⟩] }

/-- The chunks behind the first of the list are written, from the oldest one on. -/
def mmapChunks (s : SeriesChunks V) : SeriesChunks V :=
  match s.headChunks with
  | [] => s
  | c :: cs => { cs.foldr mmapChunk s with headChunks := [c] }

/-- The loop of `mmapCurrentOOOHeadChunk` over the encoded chunks. -/
def mmapOOOLoop : List (OOOHeadChunk V) → MemSeriesOOOFields V → SeriesChunks V →
    MemSeriesOOOFields V × SeriesChunks V
  | [], o, s => (o, s)
  | chk :: chks, o, s =>
    -- Too many OOO chunks, dropping data.
    if o.oooMmappedChunks.length ≥ oooChunkIDMask - 1 then (o, s)
    else
      mmapOOOLoop chks { o with
          oooMmappedChunks := o.oooMmappedChunks ++ [⟨s.disk.length, chk.minTime, chk.maxTime⟩] }
        { s with
          disk := s.disk ++ [⟨s.oooCreated, chk.samples, chk.minTime, chk.maxTime⟩]
          oooCreated := s.oooCreated + 1 }

variable (toEncodedChunks : List (ℤ × V) → List (OOOHeadChunk V))

/-- `toEncodedChunks` gives the chunks that the samples of an out-of-order chunk are encoded to. -/
def mmapCurrentOOOHeadChunk (s : SeriesChunks V) : SeriesChunks V :=
  match s.ooo with
  | none => s
  | some o =>
    match o.oooHeadChunk with
    | none => s
    | some c =>
      let (o, s) := mmapOOOLoop (toEncodedChunks c.samples) o s
      { s with ooo := some { o with oooHeadChunk := none } }

/-- The caller must ensure that `s.ooo` is not nil. -/
def cutNewOOOHeadChunk (mint : ℤ) (s : SeriesChunks V) : SeriesChunks V :=
  let s := s.mmapCurrentOOOHeadChunk toEncodedChunks
  { s with ooo := s.ooo.map fun o => { o with oooHeadChunk := some ⟨[], mint, minInt64⟩ } }

/-- The sample goes into the out-of-order chunk, unless the chunk has one at this time. -/
def insertSample (chunkCreated : Bool) (t : ℤ) (v : V) (c : OOOHeadChunk V) : OOOHeadChunk V :=
  match oooInsert c.samples t v with
  | none => c
  | some samples =>
    { samples := samples
      minTime := if chunkCreated ∨ t < c.minTime then t else c.minTime
      maxTime := if chunkCreated ∨ t > c.maxTime then t else c.maxTime }

def insert (t : ℤ) (v : V) (oooCapMax : ℤ) (s : SeriesChunks V) : SeriesChunks V :=
  let o := s.ooo.getD ⟨[], none, 0⟩
  let s := { s with ooo := some o }
  let chunkCreated := o.oooHeadChunk.all fun c => c.samples.length = oooCapMax
  let s := if chunkCreated then s.cutNewOOOHeadChunk toEncodedChunks t else s
  { s with
    ooo := s.ooo.map fun o =>
      { o with oooHeadChunk := o.oooHeadChunk.map (insertSample chunkCreated t v) } }

/-- The in-order part of `truncateChunksBefore`. -/
def truncateInOrder (mint : ℤ) (s : SeriesChunks V) : SeriesChunks V :=
  let kept := s.headChunks.takeWhile fun c => mint ≤ c.maxTime
  if kept.length < s.headChunks.length then
    -- If any head chunk is truncated, we can truncate all mmapped chunks.
    { s with
      headChunks := kept
      mmappedChunks := []
      firstChunkID :=
        s.firstChunkID + ((s.headChunks.length - kept.length) + s.mmappedChunks.length) }
  else
    let kept := s.mmappedChunks.dropWhile fun c => c.maxTime < mint
    { s with
      mmappedChunks := kept
      firstChunkID := s.firstChunkID + (s.mmappedChunks.length - kept.length) }

/-- The out-of-order part of `truncateChunksBefore`. -/
def truncateOOO (minOOOMmapRef : ℕ) (s : SeriesChunks V) : SeriesChunks V :=
  match s.ooo with
  | none => s
  | some o =>
    if o.oooMmappedChunks = [] then s
    else
      let kept := o.oooMmappedChunks.dropWhile fun c => c.ref ≤ minOOOMmapRef
      if kept = [] ∧ o.oooHeadChunk.isNone then { s with ooo := none }
      else
        { s with
          ooo := some { o with
              oooMmappedChunks := kept
              firstOOOChunkID :=
                o.firstOOOChunkID + (o.oooMmappedChunks.length - kept.length) } }

def truncateChunksBefore (mint : ℤ) (minOOOMmapRef : ℕ) (s : SeriesChunks V) : SeriesChunks V :=
  (s.truncateInOrder mint).truncateOOO minOOOMmapRef

/-- `memSeries.maxTime`. -/
def maxTime (s : SeriesChunks V) : ℤ :=
  match s.headChunks with
  | c :: _ => c.maxTime
  | [] => (s.mmappedChunks.getLast?.map (·.maxTime)).getD minInt64

def headChunkID (s : SeriesChunks V) (pos : ℕ) : ℕ :=
  pos + s.firstChunkID

variable (disk : List (MemChunk V))

/-- The chunk that is read from the disk for an mmapped chunk. -/
def loaded (m : MmappedChunk) : Option (MemChunk V) :=
  disk[m.ref]?.map fun c => { c with minTime := m.minTime, maxTime := m.maxTime }

/-- `memSeries.chunk`. Without a result, it panics. -/
def chunk (s : SeriesChunks V) (id : ℕ) : Option (Except ChunkError (MemChunk V)) :=
  let ix : ℤ := id - s.firstChunkID
  if ix < 0 ∨ ix > s.mmappedChunks.length + s.headChunks.length - 1 then
    some (.error .notFound)
  else
    let ix := ix.toNat
    if ix < s.mmappedChunks.length then
      match s.mmappedChunks[ix]?.bind (loaded s.disk) with
      | none => none
      | some c => some (.ok c)
    else
      let offset := s.headChunks.length - (ix - s.mmappedChunks.length) - 1
      match s.headChunks[offset]? with
      | none => some (.error .notFound)
      | some c => some (.ok c)

/-- `memSeries.oooChunk`. It panics if `s.ooo` is nil. -/
def oooChunk (s : SeriesChunks V) (id : ℕ) : Option (Except ChunkError (MemChunk V)) := do
  let o ← s.ooo
  let ix : ℤ := id - o.firstOOOChunkID
  if ix < 0 ∨ ix ≥ o.oooMmappedChunks.length then
    return .error .notFound
  else
    match o.oooMmappedChunks[ix.toNat]?.bind (loaded s.disk) with
    | none => return .error .corruption
    | some c => return .ok c

/-- The chunk of the series for a chunk ref, as in `chunkFromSeries`. -/
def chunkFromSeries (s : SeriesChunks V) (cid : ℕ) (isOOO : Bool) :
    Option (Except ChunkError (MemChunk V)) :=
  if isOOO then s.oooChunk cid else s.chunk cid

/-- What happens to the chunks of a series. -/
inductive Op (V : Type)
  | append (t : ℤ) (v : V) (cuts : ℕ)
  | insert (t : ℤ) (v : V) (oooCapMax : ℤ)
  | mmapChunks
  | mmapCurrentOOOHeadChunk
  | truncateChunksBefore (mint : ℤ) (minOOOMmapRef : ℕ)

variable (toEncodedChunks : List (ℤ × V) → List (OOOHeadChunk V))

def step (s : SeriesChunks V) : Op V → SeriesChunks V
  | .append t v cuts => s.append t v cuts
  | .insert t v oooCapMax => s.insert toEncodedChunks t v oooCapMax
  | .mmapChunks => s.mmapChunks
  | .mmapCurrentOOOHeadChunk => s.mmapCurrentOOOHeadChunk toEncodedChunks
  | .truncateChunksBefore mint minOOOMmapRef => s.truncateChunksBefore mint minOOOMmapRef

def run (s : SeriesChunks V) (ops : List (Op V)) : SeriesChunks V :=
  ops.foldl (step toEncodedChunks) s

/-! ### The two spaces of IDs as windows -/

/-- The chunks on the disk of some mmapped chunks. -/
def load (ms : List MmappedChunk) : List (MemChunk V) :=
  ms.filterMap (loaded disk)

/-- The in-order chunks, from the oldest to the newest. -/
def inOrder (s : SeriesChunks V) : Window (MemChunk V) :=
  ⟨s.firstChunkID, load s.disk s.mmappedChunks ++ s.headChunks.reverse⟩

/-- The mmapped out-of-order chunks. -/
def outOfOrder (s : SeriesChunks V) : Window (MemChunk V) :=
  match s.ooo with
  | none => ⟨0, []⟩
  | some o => ⟨o.firstOOOChunkID, load s.disk o.oooMmappedChunks⟩

def space (s : SeriesChunks V) (isOOO : Bool) : Window (MemChunk V) :=
  if isOOO then s.outOfOrder else s.inOrder

/-- What was written to the disk is there. -/
structure OnDisk (s : SeriesChunks V) : Prop where
  mmapped : ∀ m ∈ s.mmappedChunks, m.ref < s.disk.length
  ooo : ∀ o, s.ooo = some o → ∀ m ∈ o.oooMmappedChunks, m.ref < s.disk.length

/-- The same chunk, to which samples may have been added. -/
def Grows (c c' : MemChunk V) : Prop :=
  c.serial = c'.serial ∧ c.samples <+: c'.samples

lemma Grows.refl (c : MemChunk V) : Grows c c :=
  ⟨rfl, prefix_rfl⟩

lemma Grows.trans (a b c : MemChunk V) (hab : Grows a b) (hbc : Grows b c) : Grows a c :=
  ⟨hab.1.trans hbc.1, hab.2.trans hbc.2⟩

/-- What a run does to a space of IDs. -/
abbrev Evolves : Window (MemChunk V) → Window (MemChunk V) → Prop :=
  Steps MemChunk.serial Grows

section Load

variable {disk : List (MemChunk V)} {ms : List MmappedChunk}

lemma loaded_append {m : MmappedChunk} (h : m.ref < disk.length) (disk' : List (MemChunk V)) :
    loaded (disk ++ disk') m = loaded disk m := by
  simp only [loaded, getElem?_append_left h]

lemma loaded_last (c : MemChunk V) :
    loaded (disk ++ [c]) ⟨disk.length, c.minTime, c.maxTime⟩ = some c := by
  simp [loaded]

lemma load_cons {m : MmappedChunk} (ms : List MmappedChunk) (h : m.ref < disk.length) :
    ∃ c, loaded disk m = some c ∧ load disk (m :: ms) = c :: load disk ms := by
  have hm : loaded disk m =
      some { disk[m.ref] with minTime := m.minTime, maxTime := m.maxTime } := by
    simp [loaded, h]
  exact ⟨_, hm, by simp only [load, filterMap_cons, hm]⟩

section

variable (h : ∀ m ∈ ms, m.ref < disk.length)
include h

lemma load_append_disk (disk' : List (MemChunk V)) : load (disk ++ disk') ms = load disk ms := by
  induction ms with
  | nil => rfl
  | cons m ms ih =>
    simp only [load, filterMap_cons, loaded_append (h m mem_cons_self) disk'] at ih ⊢
    rw [ih fun m' hm' => h m' (mem_cons_of_mem m hm')]

/-- Writing a chunk adds it at the end. -/
lemma load_write (c : MemChunk V) :
    load (disk ++ [c]) (ms ++ [⟨disk.length, c.minTime, c.maxTime⟩]) = load disk ms ++ [c] := by
  have hlast : load (disk ++ [c]) [⟨disk.length, c.minTime, c.maxTime⟩] = [c] := by
    rw [load, filterMap_cons, loaded_last, filterMap_nil]
  rw [load, filterMap_append]
  exact congrArg₂ _ (load_append_disk h [c]) hlast

lemma getElem?_load (p : ℕ) : (load disk ms)[p]? = ms[p]?.bind (loaded disk) := by
  induction ms generalizing p with
  | nil => rfl
  | cons m ms ih =>
    obtain ⟨c, hm, hload⟩ := load_cons ms (h m mem_cons_self)
    rw [hload]
    cases p with
    | zero => simp [hm]
    | succ p => simpa using ih (fun m' hm' => h m' (mem_cons_of_mem m hm')) p

lemma length_load : (load disk ms).length = ms.length := by
  induction ms with
  | nil => rfl
  | cons m ms ih =>
    obtain ⟨c, -, hload⟩ := load_cons ms (h m mem_cons_self)
    rw [hload, length_cons, length_cons, ih fun m' hm' => h m' (mem_cons_of_mem m hm')]

lemma load_drop (k : ℕ) : load disk (ms.drop k) = (load disk ms).drop k := by
  induction k generalizing ms with
  | zero => rfl
  | succ k ih =>
    cases ms with
    | nil => rfl
    | cons m ms =>
      obtain ⟨c, -, hload⟩ := load_cons ms (h m mem_cons_self)
      rw [hload]
      exact ih fun m' hm' => h m' (mem_cons_of_mem m hm')

end

end Load

variable {s : SeriesChunks V} {o : MemSeriesOOOFields V}

/-- An in-order ID finds what the window has under its number. -/
theorem chunk_eq (hs : s.OnDisk) (id : ℕ) :
    s.chunk id = some ((s.inOrder.get? id).elim (.error .notFound) .ok) := by
  have hlen := length_load hs.mmapped
  by_cases hlt : id < s.firstChunkID
  · have hnone : s.inOrder.get? id = none := get?_eq_none_iff.2 (.inl hlt)
    rw [hnone, chunk, if_pos (.inl (by omega))]
    rfl
  obtain ⟨p, rfl⟩ := Nat.exists_eq_add_of_le (Nat.le_of_not_lt hlt)
  have hix : ((s.firstChunkID + p : ℕ) : ℤ) - s.firstChunkID = p := by omega
  have hget : s.inOrder.get? (s.firstChunkID + p) = _ := get?_add s.inOrder p
  simp only [inOrder] at hget
  rw [inOrder, hget, chunk]
  simp only [hix, Int.toNat_natCast]
  by_cases hmm : p < s.mmappedChunks.length
  · rw [if_neg (by omega), if_pos hmm, getElem?_append_left (by omega), getElem?_load hs.mmapped]
    obtain ⟨c, hc⟩ : ∃ c, (load s.disk s.mmappedChunks)[p]? = some c :=
      ⟨_, getElem?_eq_getElem (by omega)⟩
    rw [getElem?_load hs.mmapped] at hc
    rw [hc]
    rfl
  rw [getElem?_append_right (by omega), hlen]
  by_cases hhead : p - s.mmappedChunks.length < s.headChunks.length
  · -- The list has the newest chunk in front, so positions count from its end.
    have hoff : s.headChunks.length - (p - s.mmappedChunks.length) - 1 =
        s.headChunks.length - 1 - (p - s.mmappedChunks.length) := by omega
    rw [if_neg (by omega), if_neg hmm, hoff, ← getElem?_reverse hhead]
    obtain ⟨c, hc⟩ : ∃ c, s.headChunks.reverse[p - s.mmappedChunks.length]? = some c :=
      ⟨_, getElem?_eq_getElem (by simpa using hhead)⟩
    rw [hc]
    rfl
  · rw [if_pos (by omega), getElem?_eq_none (by simp only [length_reverse]; omega)]
    rfl

/-- An out-of-order ID finds what the window has under its number, as long as there is `s.ooo`. -/
theorem oooChunk_eq (hs : s.OnDisk) (hooo : s.ooo.isSome) (id : ℕ) :
    s.oooChunk id = some ((s.outOfOrder.get? id).elim (.error .notFound) .ok) := by
  obtain ⟨o, ho⟩ := isSome_iff_exists.1 hooo
  have hlen := length_load (hs.ooo o ho)
  have hwin : s.outOfOrder = ⟨o.firstOOOChunkID, load s.disk o.oooMmappedChunks⟩ := by
    rw [outOfOrder, ho]
  rw [hwin, oooChunk, ho]
  simp only [bind_eq_bind, bind_some]
  by_cases hlt : id < o.firstOOOChunkID
  · rw [if_pos (.inl (by omega)), get?_eq_none_iff.2 (.inl hlt)]
    rfl
  obtain ⟨p, rfl⟩ := Nat.exists_eq_add_of_le (Nat.le_of_not_lt hlt)
  have hix : ((o.firstOOOChunkID + p : ℕ) : ℤ) - o.firstOOOChunkID = p := by omega
  have hget := get?_add ⟨o.firstOOOChunkID, load s.disk o.oooMmappedChunks⟩ p
  rw [hget]
  simp only [hix, Int.toNat_natCast]
  by_cases hp : p < o.oooMmappedChunks.length
  · obtain ⟨c, hc⟩ : ∃ c, (load s.disk o.oooMmappedChunks)[p]? = some c :=
      ⟨_, getElem?_eq_getElem (by omega)⟩
    rw [if_neg (by omega), hc]
    rw [getElem?_load (hs.ooo o ho)] at hc
    rw [hc]
    rfl
  · rw [if_pos (.inr (by omega)), getElem?_eq_none (by omega)]
    rfl

/-! ### What the operations do to the windows -/

/-- The counters of created chunks are the next numbers of the windows. -/
structure Counted (s : SeriesChunks V) : Prop extends OnDisk s where
  created : s.created = s.inOrder.next
  oooCreated : s.oooCreated = s.outOfOrder.next

/-- What every operation does, if it does not drop `ooo`. -/
structure Moves (s s' : SeriesChunks V) : Prop where
  counted : s'.Counted
  ref : s'.ref = s.ref
  inOrder : Evolves s.inOrder s'.inOrder
  outOfOrder : Evolves s.outOfOrder s'.outOfOrder
  ooo : s.ooo.isSome → s'.ooo.isSome

lemma Moves.refl (hs : s.Counted) : Moves s s :=
  ⟨hs, rfl, .refl, .refl, id⟩

lemma Moves.trans {s₁ s₂ s₃ : SeriesChunks V} (h : Moves s₁ s₂) (h' : Moves s₂ s₃) : Moves s₁ s₃ :=
  ⟨h'.counted, h'.ref.trans h.ref, h.inOrder.trans h'.inOrder, h.outOfOrder.trans h'.outOfOrder,
    fun hs => h'.ooo (h.ooo hs)⟩

/-- An operation that leaves the windows alone. -/
lemma Moves.of_eq {s' : SeriesChunks V} (hs : s.Counted) (hdisk : s'.OnDisk)
    (href : s'.ref = s.ref) (hin : s'.inOrder = s.inOrder) (hout : s'.outOfOrder = s.outOfOrder)
    (hcreated : s'.created = s.created) (hoooCreated : s'.oooCreated = s.oooCreated)
    (hooo : s.ooo.isSome → s'.ooo.isSome) : Moves s s' where
  counted := ⟨hdisk, by rw [hin, hcreated, hs.created], by rw [hout, hoooCreated, hs.oooCreated]⟩
  ref := href
  inOrder := by rw [hin]
  outOfOrder := by rw [hout]
  ooo := hooo

lemma inOrder_cutNewHeadChunk (mint : ℤ) :
    (s.cutNewHeadChunk mint).inOrder = s.inOrder.push ⟨s.created, [], mint, minInt64⟩ := by
  simp [cutNewHeadChunk, inOrder, push]

variable (hs : s.Counted)
include hs

lemma cutNewHeadChunk_moves (mint : ℤ) : Moves s (s.cutNewHeadChunk mint) where
  counted :=
    { hs with
      created := by
        rw [inOrder_cutNewHeadChunk, next_push, ← hs.created]
        rfl }
  ref := rfl
  inOrder := by
    rw [inOrder_cutNewHeadChunk]
    exact .single (.push _ _ hs.created)
  outOfOrder := .refl
  ooo := id

lemma iterate_cutNewHeadChunk_moves (mint : ℤ) (cuts : ℕ) :
    Moves s ((cutNewHeadChunk mint)^[cuts] s) := by
  induction cuts with
  | zero => exact .refl hs
  | succ cuts ih =>
    rw [Function.iterate_succ_apply']
    exact ih.trans (cutNewHeadChunk_moves ih.counted mint)

variable (t : ℤ)

lemma appendPreprocessor_moves (cuts : ℕ) : Moves s (s.appendPreprocessor t cuts).2 := by
  have hcut : Moves s (if s.headChunks = [] then s.cutNewHeadChunk t else s) := by
    split
    · exact cutNewHeadChunk_moves hs t
    · exact .refl hs
  rw [appendPreprocessor]
  split
  · exact .refl hs
  dsimp only
  generalize (if s.headChunks = [] then s.cutNewHeadChunk t else s) = s' at hcut ⊢
  split
  · exact hcut
  · exact hcut.trans (iterate_cutNewHeadChunk_moves hcut.counted t cuts)

lemma appendSample_moves (v : V) : Moves s (s.appendSample t v) := by
  rw [appendSample]
  split
  · exact .refl hs
  case h_2 c cs heq =>
    have hwin : s.inOrder =
        ⟨s.firstChunkID, (load s.disk s.mmappedChunks ++ cs.reverse) ++ [c]⟩ := by
      simp [inOrder, heq]
    constructor
    case counted =>
      refine ⟨⟨hs.mmapped, hs.ooo⟩, ?_, hs.oooCreated⟩
      have hcreated := hs.created
      rw [hwin] at hcreated
      simpa [inOrder, Window.next] using hcreated
    case ref => rfl
    case inOrder =>
      rw [hwin, inOrder]
      simp only [reverse_cons, ← append_assoc]
      exact .single (.amend _ _ _ _ ⟨rfl, prefix_append _ _⟩)
    case outOfOrder => exact .refl
    case ooo => exact id

lemma append_moves (v : V) (cuts : ℕ) : Moves s (s.append t v cuts) := by
  have hpre := appendPreprocessor_moves hs t cuts
  rw [append]
  split
  case h_1 s' heq =>
    rwa [heq] at hpre
  case h_2 s' heq =>
    rw [heq] at hpre
    exact hpre.trans (appendSample_moves hpre.counted t v)

omit hs

/-- The loop of `mmapChunks` moves chunks behind the mmapped ones. -/
lemma foldr_mmapChunk (hs : s.OnDisk) (cs : List (MemChunk V)) :
    ∃ ms, cs.foldr mmapChunk s = { s with disk := s.disk ++ cs.reverse, mmappedChunks := ms } ∧
      (∀ m ∈ ms, m.ref < (s.disk ++ cs.reverse).length) ∧
      load (s.disk ++ cs.reverse) ms = load s.disk s.mmappedChunks ++ cs.reverse := by
  induction cs with
  | nil => exact ⟨s.mmappedChunks, by simp, by simpa using hs.mmapped, by simp⟩
  | cons c cs ih =>
    obtain ⟨ms, heq, hlt, hload⟩ := ih
    simp only [reverse_cons, ← append_assoc]
    refine ⟨ms ++ [⟨(s.disk ++ cs.reverse).length, c.minTime, c.maxTime⟩], ?_, ?_, ?_⟩
    · rw [foldr_cons, heq, mmapChunk]
    · intro m hm
      rw [length_append, length_singleton]
      rcases mem_append.1 hm with hm | hm
      · exact lt_succ_of_lt (hlt m hm)
      · rw [mem_singleton.1 hm]
        exact lt_succ_self _
    · rw [load_write hlt, hload]

lemma outOfOrder_append_disk (hs : s.OnDisk) (disk : List (MemChunk V))
    (ms : List MmappedChunk) (cs : List (MemChunk V)) :
    ({ s with disk := s.disk ++ disk, mmappedChunks := ms, headChunks := cs } :
      SeriesChunks V).outOfOrder = s.outOfOrder := by
  cases ho : s.ooo with
  | none => simp [outOfOrder, ho]
  | some o => simp [outOfOrder, ho, load_append_disk (hs.ooo o ho)]

lemma mmapChunks_moves (hs : s.Counted) : Moves s s.mmapChunks := by
  rw [mmapChunks]
  split
  · exact .refl hs
  case h_2 c cs heq =>
    obtain ⟨ms, hfold, hlt, hload⟩ := foldr_mmapChunk hs.toOnDisk cs
    rw [hfold]
    -- The chunks have changed their container, not their order.
    have hin : ({ s with disk := s.disk ++ cs.reverse, mmappedChunks := ms, headChunks := [c] } :
        SeriesChunks V).inOrder = s.inOrder := by
      simp [inOrder, hload, heq]
    have hout := outOfOrder_append_disk hs.toOnDisk cs.reverse ms [c]
    refine .of_eq hs ⟨hlt, fun o ho m hm => ?_⟩ rfl hin hout rfl rfl id
    rw [length_append]
    exact Nat.lt_add_right _ (hs.ooo o ho m hm)

/-- One turn of the loop of `mmapCurrentOOOHeadChunk` writes a chunk. -/
lemma writeOOO_moves (ho : s.ooo = some o) (hs : s.Counted) (chk : OOOHeadChunk V) :
    Moves s { s with
      disk := s.disk ++ [⟨s.oooCreated, chk.samples, chk.minTime, chk.maxTime⟩]
      oooCreated := s.oooCreated + 1
      ooo := some { o with
        oooMmappedChunks :=
          o.oooMmappedChunks ++ [⟨s.disk.length, chk.minTime, chk.maxTime⟩] } } := by
  have hlt := hs.ooo o ho
  set c : MemChunk V := ⟨s.oooCreated, chk.samples, chk.minTime, chk.maxTime⟩ with hc
  have hin : (⟨s.firstChunkID, load (s.disk ++ [c]) s.mmappedChunks ++ s.headChunks.reverse⟩ :
      Window (MemChunk V)) = s.inOrder := by
    rw [load_append_disk hs.mmapped, inOrder]
  have hout : (⟨o.firstOOOChunkID, load (s.disk ++ [c])
      (o.oooMmappedChunks ++ [⟨s.disk.length, chk.minTime, chk.maxTime⟩])⟩ :
      Window (MemChunk V)) = s.outOfOrder.push c := by
    rw [load_write hlt c, outOfOrder, ho]
    rfl
  constructor
  case counted =>
    refine ⟨⟨fun m hm => ?_, fun o' ho' m hm => ?_⟩, hs.created.trans (congrArg next hin.symm), ?_⟩
    · rw [length_append]
      exact Nat.lt_add_right _ (hs.mmapped m hm)
    · cases ho'
      rw [length_append, length_singleton]
      rcases mem_append.1 hm with hm | hm
      · exact lt_succ_of_lt (hlt m hm)
      · rw [mem_singleton.1 hm]
        exact lt_succ_self _
    · calc s.oooCreated + 1 = (s.outOfOrder.push c).next := by rw [next_push, hs.oooCreated]
        _ = _ := congrArg next hout.symm
  case ref => rfl
  case inOrder => exact hin ▸ .refl
  case outOfOrder =>
    have hpush : Evolves s.outOfOrder (s.outOfOrder.push c) := .single (.push _ _ hs.oooCreated)
    rw [← hout] at hpush
    exact hpush
  case ooo => exact fun _ => rfl

/-- The loop of `mmapCurrentOOOHeadChunk`, with its fields stored in the series. -/
lemma mmapOOOLoop_moves (chks : List (OOOHeadChunk V))
    (hs : ({ s with ooo := some o } : SeriesChunks V).Counted) :
    Moves { s with ooo := some o }
      { (mmapOOOLoop chks o s).2 with ooo := some (mmapOOOLoop chks o s).1 } := by
  induction chks generalizing o s with
  | nil => exact .refl hs
  | cons chk chks ih =>
    rw [mmapOOOLoop]
    split
    · exact .refl hs
    have hwrite := writeOOO_moves rfl hs chk
    exact hwrite.trans (ih (s := { s with
      disk := s.disk ++ [⟨s.oooCreated, chk.samples, chk.minTime, chk.maxTime⟩]
      oooCreated := s.oooCreated + 1 }) hwrite.counted)

/-- Only the mmapped chunks of `ooo` matter. -/
lemma Moves.oooHeadChunk (ho : s.ooo = some o) (hs : s.Counted)
    (c : Option (OOOHeadChunk V)) :
    Moves s { s with ooo := some { o with oooHeadChunk := c } } := by
  have hout : ({ s with ooo := some { o with oooHeadChunk := c } } : SeriesChunks V).outOfOrder =
      s.outOfOrder := by
    simp only [SeriesChunks.outOfOrder, ho]
  refine .of_eq hs ⟨hs.mmapped, fun o' ho' => ?_⟩ rfl rfl hout rfl rfl fun _ => rfl
  cases ho'
  exact hs.ooo o ho

variable (hs : s.Counted)
include hs

lemma mmapCurrentOOOHeadChunk_moves : Moves s (s.mmapCurrentOOOHeadChunk toEncodedChunks) := by
  rw [mmapCurrentOOOHeadChunk]
  split
  · exact .refl hs
  case h_2 o ho =>
    split
    · exact .refl hs
    case h_2 c hc =>
      have heta : ({ s with ooo := some o } : SeriesChunks V) = s := by rw [← ho]
      have hloop := mmapOOOLoop_moves (toEncodedChunks c.samples) (heta ▸ hs)
      rw [heta] at hloop
      exact hloop.trans (.oooHeadChunk rfl hloop.counted none)

lemma cutNewOOOHeadChunk_moves (mint : ℤ) :
    Moves s (s.cutNewOOOHeadChunk toEncodedChunks mint) := by
  have hmmap := mmapCurrentOOOHeadChunk_moves toEncodedChunks hs
  rw [cutNewOOOHeadChunk]
  generalize s.mmapCurrentOOOHeadChunk toEncodedChunks = s' at hmmap ⊢
  cases ho : s'.ooo with
  | none =>
    rw [map_none, ← ho]
    exact hmmap
  | some o => exact hmmap.trans (.oooHeadChunk ho hmmap.counted _)

lemma insert_moves (v : V) (oooCapMax : ℤ) : Moves s (s.insert toEncodedChunks t v oooCapMax) := by
  have hooo : Moves s { s with ooo := some (s.ooo.getD ⟨[], none, 0⟩) } := by
    cases ho : s.ooo with
    | none =>
      have hout : s.outOfOrder = ⟨0, []⟩ := by rw [outOfOrder, ho]
      refine .of_eq hs ⟨hs.mmapped, fun o' ho' m hm => ?_⟩ rfl rfl hout.symm rfl rfl fun _ => rfl
      cases ho'
      cases hm
    | some o =>
      rw [getD_some, ← ho]
      exact .refl hs
  rw [insert]
  generalize (s.ooo.getD ⟨[], none, 0⟩).oooHeadChunk.all _ = chunkCreated
  generalize ({ s with ooo := some (s.ooo.getD ⟨[], none, 0⟩) } : SeriesChunks V) = s₁ at hooo ⊢
  have hcut : Moves s (if chunkCreated = true then
    s₁.cutNewOOOHeadChunk toEncodedChunks t else s₁) := by
    split
    · exact hooo.trans (cutNewOOOHeadChunk_moves toEncodedChunks hooo.counted t)
    · exact hooo
  generalize (if chunkCreated = true then s₁.cutNewOOOHeadChunk toEncodedChunks t else s₁) = s₂
    at hcut ⊢
  cases ho : s₂.ooo with
  | none =>
    rw [map_none, ← ho]
    exact hcut
  | some o => exact hcut.trans (.oooHeadChunk ho hcut.counted _)

/-- Truncation drops chunks at the front of the window. -/
lemma Moves.of_drop {s' : SeriesChunks V} (hdisk : s'.OnDisk)
    (href : s'.ref = s.ref) {k l : ℕ} (hk : k ≤ s.inOrder.items.length)
    (hl : l ≤ s.outOfOrder.items.length) (hin : s'.inOrder = s.inOrder.drop k)
    (hout : s'.outOfOrder = s.outOfOrder.drop l) (hcreated : s'.created = s.created)
    (hoooCreated : s'.oooCreated = s.oooCreated) (hooo : s.ooo.isSome → s'.ooo.isSome) :
    Moves s s' where
  counted :=
    { toOnDisk := hdisk
      created := by rw [hin, next_drop hk, hcreated, hs.created]
      oooCreated := by rw [hout, next_drop hl, hoooCreated, hs.oooCreated] }
  ref := href
  inOrder := by
    rw [hin]
    exact .single (.drop _ k hk)
  outOfOrder := by
    rw [hout]
    exact .single (.drop _ l hl)
  ooo := hooo

lemma truncateInOrder_moves (mint : ℤ) : Moves s (s.truncateInOrder mint) := by
  have hlen := length_load hs.mmapped
  have hzero := zero_le s.outOfOrder.items.length
  rw [truncateInOrder]
  split
  case isTrue hlt =>
    -- The chunks behind the kept ones in the list, and all mmapped ones, are older.
    set kept := s.headChunks.takeWhile fun c => mint ≤ c.maxTime
    set gone := s.headChunks.dropWhile fun c => mint ≤ c.maxTime
    have hsplit : s.headChunks = kept ++ gone := takeWhile_append_dropWhile.symm
    have hgone : s.headChunks.length - kept.length = gone.length := by
      rw [hsplit, length_append, Nat.add_sub_cancel_left]
    have hitems : s.inOrder.items =
        (load s.disk s.mmappedChunks ++ gone.reverse) ++ kept.reverse := by
      simp [SeriesChunks.inOrder, hsplit]
    have hk : (load s.disk s.mmappedChunks ++ gone.reverse).length =
        s.headChunks.length - kept.length + s.mmappedChunks.length := by
      rw [length_append, length_reverse, hlen, hgone, Nat.add_comm]
    refine .of_drop hs ⟨?_, hs.ooo⟩ rfl ?_ hzero (Window.ext rfl ?_) rfl rfl rfl id
    · intro m hm
      cases hm
    · rw [hitems, length_append, hk]
      exact le_add_right _ _
    · simp only [Window.drop]
      rw [hitems, ← hk, drop_left]
      rfl
  case isFalse hge =>
    have hdrop := suffix_iff_eq_drop.1
      (dropWhile_suffix (fun c : MmappedChunk => c.maxTime < mint) (l := s.mmappedChunks))
    set kept := s.mmappedChunks.dropWhile fun c => c.maxTime < mint
    have hk : s.mmappedChunks.length - kept.length ≤ (load s.disk s.mmappedChunks).length := by
      rw [hlen]
      exact sub_le _ _
    refine .of_drop hs ⟨fun m hm => ?_, hs.ooo⟩ rfl ?_ hzero (Window.ext rfl ?_) rfl rfl rfl id
    · rw [hdrop] at hm
      exact hs.mmapped m (mem_of_mem_drop hm)
    · rw [inOrder, length_append]
      exact le_add_right_of_le hk
    · simp only [Window.drop, inOrder]
      rw [drop_append_of_le_length hk, ← load_drop hs.mmapped, ← hdrop]

omit hs

/-- A truncation that drops `ooo`, with the counter of out-of-order chunks in it: there are such
chunks on disk, all of them are to go, and there is none in memory. -/
def DropsOOO (s : SeriesChunks V) : Op V → Prop
  | .truncateChunksBefore _ minOOOMmapRef => ∃ o, s.ooo = some o ∧ o.oooHeadChunk = none ∧
      o.oooMmappedChunks ≠ [] ∧ ∀ c ∈ o.oooMmappedChunks, c.ref ≤ minOOOMmapRef
  | _ => False

omit toEncodedChunks in
lemma truncateOOO_eq_none_iff {o : MemSeriesOOOFields V} (ho : s.ooo = some o) (minOOOMmapRef : ℕ) :
    (s.truncateOOO minOOOMmapRef).ooo = none ↔ o.oooHeadChunk = none ∧ o.oooMmappedChunks ≠ [] ∧
      ∀ c ∈ o.oooMmappedChunks, c.ref ≤ minOOOMmapRef := by
  simp only [truncateOOO, ho]
  split_ifs with hnil hgone
  · simp [ho, hnil]
  · simpa [hnil, and_comm] using hgone
  · simpa [hnil, and_comm] using hgone

lemma truncateOOO_moves (hs : s.Counted) (minOOOMmapRef : ℕ)
    (hkept : s.ooo.isSome → (s.truncateOOO minOOOMmapRef).ooo ≠ none) :
    Moves s (s.truncateOOO minOOOMmapRef) := by
  rw [truncateOOO] at hkept ⊢
  cases ho : s.ooo with
  | none =>
    exact .refl hs
  | some o =>
    simp only [ho] at hkept ⊢
    have hlen := length_load (hs.ooo o ho)
    split
    · exact .refl hs
    case isFalse hne =>
      rw [if_neg hne] at hkept
      split
      case isTrue hdrops =>
        rw [if_pos hdrops] at hkept
        exact absurd rfl (hkept rfl)
      case isFalse hstays =>
        have hdrop := suffix_iff_eq_drop.1
          (dropWhile_suffix (fun c : MmappedChunk => c.ref ≤ minOOOMmapRef)
            (l := o.oooMmappedChunks))
        set kept := o.oooMmappedChunks.dropWhile fun c => c.ref ≤ minOOOMmapRef
        have hwin : s.outOfOrder = ⟨o.firstOOOChunkID, load s.disk o.oooMmappedChunks⟩ := by
          rw [outOfOrder, ho]
        refine .of_drop hs ⟨hs.mmapped, fun o' ho' m hm => ?_⟩ rfl (zero_le _) ?_ rfl
          (Window.ext ?_ ?_) rfl rfl (fun _ => rfl)
          (l := o.oooMmappedChunks.length - kept.length)
        · cases ho'
          rw [hdrop] at hm
          exact hs.ooo o ho m (mem_of_mem_drop hm)
        · rw [hwin, hlen]
          exact sub_le _ _
        · rw [hwin]
          rfl
        · rw [hwin]
          simp only [Window.drop, outOfOrder]
          rw [← load_drop (hs.ooo o ho), ← hdrop]

/-- One step: unless it drops `ooo`, the windows evolve. -/
lemma step_moves (hs : s.Counted) (op : Op V) (hop : ¬ s.DropsOOO op) :
    Moves s (s.step toEncodedChunks op) := by
  cases op with
  | append t v cuts => exact append_moves hs t v cuts
  | insert t v oooCapMax => exact insert_moves toEncodedChunks hs t v oooCapMax
  | mmapChunks => exact mmapChunks_moves hs
  | mmapCurrentOOOHeadChunk => exact mmapCurrentOOOHeadChunk_moves toEncodedChunks hs
  | truncateChunksBefore mint minOOOMmapRef =>
    have hin := truncateInOrder_moves hs mint
    have hooo : (s.truncateInOrder mint).ooo = s.ooo := by
      rw [truncateInOrder]
      split <;> rfl
    refine hin.trans (truncateOOO_moves hin.counted minOOOMmapRef fun hsome hnone => ?_)
    obtain ⟨o, ho⟩ := Option.isSome_iff_exists.1 hsome
    exact hop ⟨o, hooo ▸ ho, (truncateOOO_eq_none_iff ho minOOOMmapRef).1 hnone⟩

end SeriesChunks
end Prometheus.Tsdb
