import Prometheus.Labels.Stringlabels
import Prometheus.Lib.Float64
import Prometheus.Lib.Sort

/-!
# Exemplar storage

`CircularExemplarStorage` of `tsdb/exemplar.go`, which keeps the exemplars of all series in one ring
buffer. The exemplars of a series are linked through the buffer from the oldest to the newest, and
an index has an entry with both ends for each series. Entries of the index are reached through
pointers, from the index and from the buffer, and so there is a heap of entries.

Reads and writes that are out of range panic (`none`). Metrics are left out.
-/

namespace Prometheus.Exemplars

open Stringlabels Utf8

/-! ### Exemplars -/

structure Exemplar where
  labels : Labels
  value : BitVec 64
  ts : ℤ
  hasTs : Bool
  deriving DecidableEq, Repr

/-- `Equals`. Timestamps are ignored if neither exemplar came with one. -/
def Exemplar.equals (e e₂ : Exemplar) : Bool :=
  e.labels = e₂.labels && !((e.hasTs || e₂.hasTs) && e.ts ≠ e₂.ts) && Float64.eq e.value e₂.value

structure QueryResult where
  seriesLabels : Labels
  exemplars : List Exemplar

inductive ExemplarError
  | exemplarsDisabled
  | exemplarLabelLength
  | duplicateExemplar
  | outOfOrderExemplar
  deriving DecidableEq, Repr

def exemplarMaxLabelSetLength : ℕ := 128

/-- The loop over the labels of an exemplar, after labels with `labelSetLen` characters. -/
def validateLabels : ℕ → Labels → Except ExemplarError Unit
  | _, [] => .ok ()
  | labelSetLen, l :: ls =>
    let labelSetLen := labelSetLen + runeCount l.name + runeCount l.value
    if labelSetLen > exemplarMaxLabelSetLength then .error .exemplarLabelLength
    else validateLabels labelSetLen ls

/-! ### The storage -/

structure IndexEntry where
  oldest : ℕ
  newest : ℕ
  seriesLabels : Labels

/-- A slot of the buffer. There is no next slot at the end of a series, and no index entry while the
slot has not been used. -/
structure CircularBufferEntry where
  exemplar : Exemplar
  next : Option ℕ
  ref : Option ℕ

/-- The zero value. -/
def CircularBufferEntry.zero : CircularBufferEntry :=
  ⟨⟨[], 0#64, 0, false⟩, some 0, none⟩

instance : Inhabited CircularBufferEntry := ⟨.zero⟩

structure CircularExemplarStorage where
  exemplars : List CircularBufferEntry
  nextIndex : ℕ
  index : Finmap fun _ : Labels => ℕ
  /-- The index entries at their addresses, and the next address. -/
  heap : ℕ → IndexEntry
  fresh : ℕ

/-- What a program has no say in: the hashes of label sets, in which order a map is traversed, and
how a slice is sorted. -/
structure ExemplarRuntime where
  hash : Labels → BitVec 64
  traverse : (Finmap fun _ : Labels => ℕ) → List (Σ _ : Labels, ℕ)
  coe_traverse : ∀ m, (traverse m : Multiset (Σ _ : Labels, ℕ)) = m.entries
  sort : List QueryResult → List QueryResult
  sortsBy : SortsBy (fun a b => CompareLe a.seriesLabels b.seriesLabels) sort

/-- What `validateExemplar` checks, where `newest` is the newest exemplar of the series. -/
def validateAgainst (R : ExemplarRuntime) (newest : Option Exemplar) (e : Exemplar) :
    Except ExemplarError Unit := do
  validateLabels 0 e.labels
  match newest with
  | none => return ()
  | some newestExemplar =>
    if newestExemplar.equals e then throw .duplicateExemplar
    if e.ts < newestExemplar.ts ||
        e.ts = newestExemplar.ts && Float64.lt e.value newestExemplar.value ||
        e.ts = newestExemplar.ts && Float64.eq e.value newestExemplar.value &&
          R.hash e.labels < R.hash newestExemplar.labels then
      throw .outOfOrderExemplar

def newCircularExemplarStorage (length : ℤ) : CircularExemplarStorage where
  exemplars := List.replicate length.toNat .zero
  nextIndex := 0
  index := ∅
  heap _ := ⟨0, 0, []⟩
  fresh := 0

def matchesSomeMatcherSet (lbls : Labels) (matchers : List (List Matcher)) : Bool :=
  matchers.any fun ms => ms.all fun m => m.matches (get lbls m.name)

namespace CircularExemplarStorage

variable (R : ExemplarRuntime) (ce : CircularExemplarStorage)

def validateExemplar (idx : Option ℕ) (e : Exemplar) : Option (Except ExemplarError Unit) :=
  if ce.exemplars.length = 0 then some (.error .exemplarsDisabled)
  else match idx with
    | none => some (validateAgainst R none e)
    | some idx => do
      let newest ← ce.exemplars[(ce.heap idx).newest]?
      return validateAgainst R newest.exemplar e

/-- `ce.exemplars[i].next = next`. -/
def setNext (i next : ℕ) : Option CircularExemplarStorage := do
  let entry ← ce.exemplars[i]?
  return { ce with exemplars := ce.exemplars.set i { entry with next := some next } }

/-- The address of the index entry of a series. There is a new one if it has none, or else the
newest exemplar of the series is linked to the slot that is to be written. -/
def link (l : Labels) : Option (CircularExemplarStorage × ℕ) :=
  match ce.index.lookup l with
  | none => some ({ ce with
        index := ce.index.insert l ce.fresh
        heap := Function.update ce.heap ce.fresh ⟨ce.nextIndex, 0, l⟩
        fresh := ce.fresh + 1 },
      ce.fresh)
  | some idx => do
    let ce ← ce.setNext (ce.heap idx).newest ce.nextIndex
    return (ce, idx)

/-- Drops the exemplar that is in the slot that is to be written. -/
def dropPrev : Option CircularExemplarStorage := do
  let prev ← ce.exemplars[ce.nextIndex]?
  match prev.ref, prev.next with
  | none, _ => return ce
  | some ref, none => return { ce with index := ce.index.erase (ce.heap ref).seriesLabels }
  | some ref, some next =>
    return { ce with heap := Function.update ce.heap ref { ce.heap ref with oldest := next } }

/-- Writes the slot, and goes on to the next one. -/
def write (e : Exemplar) (idx : ℕ) : Option CircularExemplarStorage :=
  if ce.nextIndex < ce.exemplars.length then
    some { ce with
      exemplars := ce.exemplars.set ce.nextIndex ⟨e, none, some idx⟩
      heap := Function.update ce.heap idx { ce.heap idx with newest := ce.nextIndex }
      nextIndex := (ce.nextIndex + 1) % ce.exemplars.length }
  else none

def addExemplar (l : Labels) (e : Exemplar) :
    Option (CircularExemplarStorage × Except ExemplarError Unit) := do
  if ce.exemplars.length = 0 then
    return (ce, .error .exemplarsDisabled)
  match ← ce.validateExemplar R (ce.index.lookup l) e with
  | .error .duplicateExemplar => return (ce, .ok ())
  | .error err => return (ce, .error err)
  | .ok () =>
    let (ce, idx) ← ce.link l
    let ce ← ce.dropPrev
    let ce ← ce.write e idx
    return (ce, .ok ())

/-- The index entry that a slot of the old buffer refers to is used again, if its series does not
have one yet. -/
def migrate (entry : CircularBufferEntry) (ref : ℕ) : Option CircularExemplarStorage := do
  let l := (ce.heap ref).seriesLabels
  match ce.index.lookup l with
  | none =>
    let ce := { ce with
      heap := Function.update ce.heap ref { ce.heap ref with oldest := ce.nextIndex }
      index := ce.index.insert l ref }
    ce.write entry.exemplar ref
  | some idx =>
    let ce ← ce.setNext (ce.heap idx).newest ce.nextIndex
    ce.write entry.exemplar idx

/-- A turn of the loop that migrates entries, with the number of those that were. -/
def migrateTurn (s : CircularExemplarStorage × ℕ) (entry : CircularBufferEntry) :
    Option (CircularExemplarStorage × ℕ) :=
  match entry.ref with
  | none => some s
  | some ref => do
    let ce ← s.1.migrate entry ref
    return (ce, s.2 + 1)

def resize (l : ℤ) : Option (CircularExemplarStorage × ℕ) := do
  let l := l.toNat
  if l = ce.exemplars.length then
    return (ce, 0)
  let oldBuffer := ce.exemplars
  let oldNextIndex := ce.nextIndex
  let ce := { ce with
    exemplars := List.replicate l .zero
    index := ∅
    nextIndex := 0 }
  let count := min l oldBuffer.length
  if 0 < l ∧ 0 < oldBuffer.length then
    let startIndex := (oldNextIndex + oldBuffer.length - count) % oldBuffer.length
    (List.range count).foldlM (fun s i => do
        let entry ← oldBuffer[(startIndex + i) % oldBuffer.length]?
        migrateTurn s entry)
      (ce, 0)
  else
    return (ce, 0)

/-- The calls of the function, if none of them returns an error. -/
def iterateExemplars : Option (List (Labels × Exemplar)) :=
  go ce.exemplars.length ce.nextIndex
where
  go : ℕ → ℕ → Option (List (Labels × Exemplar))
    | 0, _ => some []
    | n + 1, idx => do
      let entry ← ce.exemplars[idx]?
      let rest ← go n ((idx + 1) % ce.exemplars.length)
      match entry.ref with
      | none => return rest
      | some ref => return ((ce.heap ref).seriesLabels, entry.exemplar) :: rest

/-- The loop through the exemplars of a series from one of them on, for so many turns at most. -/
def selectLoop (start stop : ℤ) : ℕ → CircularBufferEntry → Option (List Exemplar)
  | 0, _ => none
  | fuel + 1, e =>
    if e.exemplar.ts ≤ stop then do
      let rest ← match e.next with
        | none => some []
        | some next => do
          let e ← ce.exemplars[next]?
          selectLoop start stop fuel e
      if start ≤ e.exemplar.ts then return e.exemplar :: rest
      return rest
    else some []

/-- What a series adds to the results. -/
def selectSeries (start stop : ℤ) (matchers : List (List Matcher)) (idx : IndexEntry) :
    Option (List QueryResult) := do
  let e ← ce.exemplars[idx.oldest]?
  if e.exemplar.ts > stop then return []
  let newest ← ce.exemplars[idx.newest]?
  if newest.exemplar.ts < start then return []
  if !matchesSomeMatcherSet idx.seriesLabels matchers then return []
  let exemplars ← ce.selectLoop start stop ce.exemplars.length e
  if exemplars.length > 0 then return [⟨idx.seriesLabels, exemplars⟩]
  return []

def select (start stop : ℤ) (matchers : List (List Matcher)) : Option (List QueryResult) := do
  if ce.exemplars.length = 0 then return []
  let ret ← (R.traverse ce.index).mapM fun entry =>
    ce.selectSeries start stop matchers (ce.heap entry.2)
  return R.sort ret.flatten

end CircularExemplarStorage

end Prometheus.Exemplars
