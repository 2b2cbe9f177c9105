import Mathlib

/-!
# Sample iterators

The interface of `tsdb/chunkenc/chunk.go` to iterators over samples, with the behaviour its comments
promise. Code that works on any iterator is modelled over `Iterator`; what it may rely on is
`Iterator.Lawful`.
-/

namespace Prometheus.Chunkenc

/-- The type of the value at an iterator position. -/
inductive ValueType
  | valNone
  | valFloat
  | valHistogram
  | valFloatHistogram
  deriving DecidableEq, Repr

/-- The methods of an iterator with states `I` over samples with values `V`. `atV` stands for the
one of `At`, `AtHistogram` and `AtFloatHistogram` that fits the value type. -/
structure Iterator (I V : Type) where
  next : I → ValueType × I
  seek : I → ℤ → ValueType × I
  atV : I → V
  atT : I → ℤ
  err : I → Bool

/-- A sample as an iterator shows it. -/
structure TSample (V : Type) where
  t : ℤ
  vt : ValueType
  v : V

/-- A strictly increasing sequence of samples, each with a value. -/
structure Increasing {V : Type} (all : List (TSample V)) : Prop where
  sorted : all.Pairwise fun s s' => s.t < s'.t
  vt_ne : ∀ s ∈ all, s.vt ≠ .valNone

/-- The behaviour of an iterator without errors. `Rep i all cur rest` says that `i` iterates over
`all`, stands at `cur`, if at any sample, and has `rest` before it. -/
structure Iterator.Lawful {I V : Type} (it : Iterator I V)
    (Rep : I → List (TSample V) → Option (TSample V) → List (TSample V) → Prop) : Prop where
  increasing : ∀ {i all cur rest}, Rep i all cur rest → Increasing all
  suffix : ∀ {i all cur rest}, Rep i all cur rest → cur.toList ++ rest <:+ all
  atT_eq : ∀ {i all s rest}, Rep i all (some s) rest → it.atT i = s.t
  atV_eq : ∀ {i all s rest}, Rep i all (some s) rest → it.atV i = s.v
  err_eq : ∀ {i all cur rest}, Rep i all cur rest → it.err i = false
  /-- `Next` advances the iterator by one. -/
  next_cons : ∀ {i all cur s rest}, Rep i all cur (s :: rest) →
    ∃ i', it.next i = (s.vt, i') ∧ Rep i' all (some s) rest
  next_nil : ∀ {i all cur}, Rep i all cur [] → ∃ i', it.next i = (.valNone, i') ∧ Rep i' all none []
  /-- If the current sample is late enough already, `Seek` has no effect. -/
  seek_stay : ∀ {i all s rest t}, Rep i all (some s) rest → t ≤ s.t →
    ∃ i', it.seek i t = (s.vt, i') ∧ Rep i' all (some s) rest
  /-- `Seek` advances the iterator forward to the first sample with a timestamp equal or greater
  than `t`. -/
  seek_forward : ∀ {i all cur pre s rest t}, Rep i all cur (pre ++ s :: rest) →
    (∀ s' ∈ cur, s'.t < t) → (∀ s' ∈ pre, s'.t < t) → t ≤ s.t →
    ∃ i', it.seek i t = (s.vt, i') ∧ Rep i' all (some s) rest
  /-- If there is no such sample, the iterator is exhausted. -/
  seek_none : ∀ {i all cur rest t}, Rep i all cur rest → (∀ s ∈ all, s.t < t) →
    ∃ i', it.seek i t = (.valNone, i') ∧ Rep i' all none []

end Prometheus.Chunkenc
