import Prometheus.Lib.Search
import Prometheus.Chunkenc.Chunk

/-!
# Series held in a list

`listSeriesIterator` of `storage/series.go`: an iterator over samples in a slice, which behaves as
an iterator should (`listSeriesIterator_lawful`).
-/

namespace Prometheus.Storage

open Chunkenc List Option

variable {V : Type}

structure ListSeriesIterator (V : Type) where
  samples : List (TSample V)
  idx : ℤ

namespace ListSeriesIterator

variable (it : ListSeriesIterator V)

/-- `it.samples.Get(it.idx)`, with its type; out of range there is none. -/
def typeAt : ValueType :=
  ((it.samples[it.idx.toNat]?).map TSample.vt).getD .valNone

def next : ValueType × ListSeriesIterator V :=
  let it := { it with idx := it.idx + 1 }
  if it.idx ≥ it.samples.length then (.valNone, it) else (it.typeAt, it)

def tAt (i : ℕ) : ℤ :=
  ((it.samples[i]?).map TSample.t).getD 0

def seek (t : ℤ) : ValueType × ListSeriesIterator V :=
  let it := if it.idx = -1 then { it with idx := 0 } else it
  if it.idx ≥ it.samples.length then (.valNone, it)
  else if it.tAt it.idx.toNat ≥ t then (it.typeAt, it)
  else
    -- Do binary search between current position and end.
    let off := BinarySearch.search (it.samples.length - it.idx.toNat) fun i =>
      it.tAt (i + it.idx.toNat) ≥ t
    let it := { it with idx := it.idx + off }
    if it.idx ≥ it.samples.length then (.valNone, it) else (it.typeAt, it)

end ListSeriesIterator

/-- Index `-1` is before the first sample, an index from the length on past the last. -/
structure ListSeriesIterator.Rep (it : ListSeriesIterator V) (all : List (TSample V))
    (cur : Option (TSample V)) (rest : List (TSample V)) : Prop where
  samples_eq : it.samples = all
  increasing : Increasing all
  pos : it.idx = -1 ∧ cur = none ∧ rest = all ∨
    ∃ k : ℕ, it.idx = k ∧ all.drop k = cur.toList ++ rest ∧ (cur = none → rest = [])

variable {pre post : List (TSample V)}

namespace ListSeriesIterator

variable {it : ListSeriesIterator V} {all rest : List (TSample V)} {cur : Option (TSample V)}
  {s : TSample V} {k : ℕ} {t : ℤ}

/-- Standing at an index. -/
lemma Rep.at_index (hinc : Increasing all) (hk : all.drop k = s :: rest) :
    Rep ⟨all, k⟩ all (some s) rest ∧ (k : ℤ) < all.length ∧
      (⟨all, k⟩ : ListSeriesIterator V).typeAt = s.vt ∧
      (⟨all, k⟩ : ListSeriesIterator V).tAt k = s.t := by
  have hget : all[k]? = some s := by
    rw [← head?_drop, hk, head?_cons]
  refine ⟨⟨rfl, hinc, .inr ⟨k, rfl, hk, by simp⟩⟩, ?_, ?_, ?_⟩
  · have := (List.getElem?_eq_some_iff.1 hget).1
    omega
  · simp [typeAt, hget]
  · simp [tAt, hget]

/-- The binary search finds the end of the samples before `t`. -/
lemma search_eq
    (hk : all.drop k = pre ++ post) (hpre : ∀ s ∈ pre, s.t < t) (hpost : ∀ s ∈ post, t ≤ s.t) :
    BinarySearch.search (all.length - k) (fun i => (mk all k).tAt (i + k) ≥ t) = pre.length := by
  have hlen : all.length - k = pre.length + post.length := by
    rw [← length_drop, hk, length_append]
  -- the predicate, read off the two parts
  have hval : ∀ i (hi : i < pre.length + post.length),
      decide ((mk all k).tAt (i + k) ≥ t) = decide (pre.length ≤ i) := by
    intro i hi
    have hget : all[i + k]? = (pre ++ post)[i]? := by
      rw [← hk, getElem?_drop, Nat.add_comm]
    rw [decide_eq_decide, tAt, hget]
    by_cases hlt : i < pre.length
    · have := hpre pre[i] (getElem_mem hlt)
      rw [getElem?_append_left hlt, getElem?_eq_getElem hlt]
      simp only [map_some, getD_some]
      omega
    have := hpost (post.get ⟨i - pre.length, by omega⟩) (get_mem ..)
    rw [getElem?_append_right (by omega), getElem?_eq_getElem (by omega)]
    simp only [map_some, getD_some]
    simp only [get_eq_getElem] at this
    omega
  rw [hlen]
  exact BinarySearch.search_eq (Nat.le_add_right _ _) hval

/-- `Seek` from an index on, behind the no-op check. -/
lemma seek_search {p : TSample V}
    (hk : all.drop k = p :: pre ++ post) (hpre : ∀ s ∈ p :: pre, s.t < t)
    (hpost : ∀ s ∈ post, t ≤ s.t) :
    (mk all k).seek t = if k + (pre.length + 1) ≥ all.length then
        (.valNone, ⟨all, (k + (pre.length + 1) : ℕ)⟩)
      else ((mk all (k + (pre.length + 1) : ℕ)).typeAt, ⟨all, (k + (pre.length + 1) : ℕ)⟩) := by
  have hget : all[k]? = some p := by
    rw [← head?_drop, hk, cons_append, head?_cons]
  have hlt : k < all.length := (List.getElem?_eq_some_iff.1 hget).1
  have hp := hpre p mem_cons_self
  have hsearch := search_eq hk hpre hpost
  have hneg : ¬(k : ℤ) = -1 := by omega
  have hin : ¬(k : ℤ) ≥ all.length := by omega
  have htAt : ¬(mk all k).tAt k ≥ t := by
    simp only [tAt, hget, map_some, getD_some]
    omega
  simp only [seek, if_neg hneg, if_neg hin, Int.toNat_natCast, if_neg htAt, hsearch, length_cons]
  norm_cast

variable (hinc : Increasing all)
include hinc

lemma seek_found
    (hk : all.drop k = pre ++ s :: rest) (hpre : ∀ s' ∈ pre, s'.t < t) (hle : t ≤ s.t) :
    ∃ it', (mk all k).seek t = (s.vt, it') ∧ it'.Rep all (some s) rest := by
  have hdrop : all.drop (k + pre.length) = s :: rest := by
    rw [← drop_drop, hk, drop_left]
  obtain ⟨hrep, hlt, htype, hT⟩ := Rep.at_index hinc hdrop
  refine ⟨_, ?_, hrep⟩
  cases pre with
  | nil =>
    have hneg : ¬(k : ℤ) = -1 := by omega
    have hin : ¬(k : ℤ) ≥ all.length := by simpa using hlt
    simp only [length_nil, Nat.add_zero] at hT htype ⊢
    simp only [seek, if_neg hneg, if_neg hin, Int.toNat_natCast, hT, if_pos hle, htype]
  | cons p pre =>
    have hpost : ∀ s' ∈ s :: rest, t ≤ s'.t := by
      have hsorted := hinc.sorted.sublist (drop_sublist (k + (p :: pre).length) all)
      rw [hdrop] at hsorted
      rintro s' (_ | ⟨_, hs'⟩)
      · exact hle
      · exact Int.le_trans hle (Int.le_of_lt (rel_of_pairwise_cons hsorted hs'))
    rw [seek_search hk hpre hpost, if_neg (by rw [length_cons] at hlt; omega)]
    rw [length_cons] at htype
    rw [htype, length_cons]

omit hinc

end ListSeriesIterator

end Prometheus.Storage
