import Prometheus.Chunkenc.Chunk

/-!
# Iterators over the samples of a chunk

The iterators of the three encodings (`xorIterator`, `histogramIterator` and
`floatHistogramIterator` of `tsdb/chunkenc`) count the samples they have read and decode one more
sample with each `Next`; their `Seek` calls `Next` for as long as the sample is too early.
`ChunkIterator` is that, over the samples that are encoded. It behaves as an iterator should
(`chunkIterator_lawful`).
-/

namespace Prometheus.Chunkenc

variable {V : Type}

open List

/-- A chunk of samples that increase in time. The number of samples is stored in two bytes. -/
structure Chunk (V : Type) where
  samples : List (TSample V)
  increasing : Increasing samples
  length_lt : samples.length < 2 ^ 16

variable (c : Chunk V)

def Chunk.numSamples : ℕ := c.samples.length

structure ChunkIterator (V : Type) where
  samples : List (TSample V)
  numRead : ℕ

def Chunk.iterator : ChunkIterator V := ⟨c.samples, 0⟩

namespace ChunkIterator

variable (it : ChunkIterator V)

/-- The sample read last, if any. -/
def cur : Option (TSample V) :=
  match it.numRead with
  | 0 => none
  | n + 1 => it.samples[n]?

def next : ValueType × ChunkIterator V :=
  match it.samples[it.numRead]? with
  | none => (.valNone, it)
  | some s => (s.vt, { it with numRead := it.numRead + 1 })

/-- The loop of `Seek`: each turn reads a sample or returns. -/
def seekLoop (t : ℤ) : ℕ → ChunkIterator V → ValueType × ChunkIterator V
  | 0, it => (.valNone, it)
  | fuel + 1, it =>
    match it.cur.filter (t ≤ ·.t) with
    | some s => (s.vt, it)
    | none =>
      match it.next with
      | (.valNone, it) => (.valNone, it)
      | (_, it) => seekLoop t fuel it

def seek (it : ChunkIterator V) (t : ℤ) : ValueType × ChunkIterator V :=
  seekLoop t (it.samples.length - it.numRead + 1) it

end ChunkIterator

def chunkIterator (V : Type) [Inhabited V] : Iterator (ChunkIterator V) V where
  next := ChunkIterator.next
  seek := ChunkIterator.seek
  atV it := (it.cur.map TSample.v).getD default
  atT it := (it.cur.map TSample.t).getD 0
  err _ := false

namespace ChunkIterator

variable {it : ChunkIterator V} {s : TSample V} {t : ℤ}

lemma next_of_getElem? (h : it.samples[it.numRead]? = some s) :
    it.next = (s.vt, ⟨it.samples, it.numRead + 1⟩) := by
  rw [next, h]

lemma next_of_le (h : it.samples.length ≤ it.numRead) : it.next = (.valNone, it) := by
  rw [next, getElem?_eq_none h]

/-- The sample read last is too early, or none is read. -/
def Before (it : ChunkIterator V) (t : ℤ) : Prop :=
  ∀ s ∈ it.cur, s.t < t

lemma seekLoop_of_before (h : it.Before t) (fuel : ℕ) :
    seekLoop t (fuel + 1) it = match it.next with
      | (.valNone, it) => (.valNone, it)
      | (_, it) => seekLoop t fuel it := by
  have hfilter : it.cur.filter (t ≤ ·.t) = none := by
    cases hcur : it.cur with
    | none => rfl
    | some s => simpa using h s hcur
  rw [seekLoop, hfilter]

lemma before_succ {n : ℕ} {ss : List (TSample V)} (hs : ss[n]? = some s) (h : s.t < t) :
    Before ⟨ss, n + 1⟩ t := by
  intro s' hs'
  obtain rfl : s = s' := Option.some.inj (hs.symm.trans hs')
  exact h

lemma seekLoop_step (h : it.Before t) (hs : it.samples[it.numRead]? = some s)
    (hvt : s.vt ≠ .valNone) (fuel : ℕ) :
    seekLoop t (fuel + 1) it = seekLoop t fuel ⟨it.samples, it.numRead + 1⟩ := by
  rw [seekLoop_of_before h, next_of_getElem? hs]
  cases hv : s.vt with
  | valNone => exact absurd hv hvt
  | valFloat | valHistogram | valFloatHistogram => rfl

lemma seekLoop_stay (h : it.cur = some s) (hle : t ≤ s.t) (fuel : ℕ) :
    seekLoop t (fuel + 1) it = (s.vt, it) := by
  rw [seekLoop, h, Option.filter_some_pos (by simpa using hle)]

section

variable (hvt : ∀ s ∈ it.samples, s.vt ≠ .valNone)
include hvt

variable (hbefore : it.Before t)
include hbefore

/-- `Seek` reads the samples that are too early, and one more. -/
lemma seekLoop_found {pre rest : List (TSample V)}
    (hrest : it.samples.drop it.numRead = pre ++ s :: rest)
    (hpre : ∀ s' ∈ pre, s'.t < t) (hle : t ≤ s.t) (fuel : ℕ) :
    seekLoop t (pre.length + 1 + fuel + 1) it =
      (s.vt, ⟨it.samples, it.numRead + pre.length + 1⟩) := by
  induction pre generalizing it with
  | nil =>
    have hs : it.samples[it.numRead]? = some s := by
      rw [← head?_drop, hrest, nil_append, head?_cons]
    rw [seekLoop_step hbefore hs (hvt s (mem_of_getElem? hs)), length_nil,
      Nat.zero_add, Nat.add_comm 1 fuel]
    exact seekLoop_stay (by simpa [cur] using hs) hle fuel
  | cons p pre ih =>
    have hp : it.samples[it.numRead]? = some p := by
      rw [← head?_drop, hrest, cons_append, head?_cons]
    have hdrop : it.samples.drop (it.numRead + 1) = pre ++ s :: rest := by
      rw [← drop_drop, hrest, cons_append, drop_one, tail_cons]
    rw [seekLoop_step hbefore hp (hvt p (mem_of_getElem? hp)), length_cons,
      show pre.length + 1 + 1 + fuel = pre.length + 1 + fuel + 1 by omega,
      @ih ⟨it.samples, it.numRead + 1⟩ hvt (before_succ hp (hpre p mem_cons_self)) hdrop
        fun s' hs' => hpre s' (mem_cons_of_mem _ hs')]
    simp only [Prod.mk.injEq, ChunkIterator.mk.injEq, true_and]
    omega

lemma seek_found {pre rest : List (TSample V)}
    (hrest : it.samples.drop it.numRead = pre ++ s :: rest)
    (hpre : ∀ s' ∈ pre, s'.t < t) (hle : t ≤ s.t) :
    it.seek t = (s.vt, ⟨it.samples, it.numRead + pre.length + 1⟩) := by
  have hlen := congrArg length hrest
  rw [length_drop, length_append, length_cons] at hlen
  rw [seek, show it.samples.length - it.numRead + 1 = pre.length + 1 + rest.length + 1 by omega]
  exact seekLoop_found hvt hbefore hrest hpre hle _

lemma seekLoop_none
    (hnum : it.numRead ≤ it.samples.length) (hrest : ∀ s ∈ it.samples.drop it.numRead, s.t < t) :
    seekLoop t (it.samples.length - it.numRead + 1) it =
      (.valNone, ⟨it.samples, it.samples.length⟩) := by
  generalize hn : it.samples.length - it.numRead = n
  induction n generalizing it with
  | zero =>
    rw [seekLoop_of_before hbefore, next_of_le (by omega)]
    obtain ⟨ss, k⟩ := it
    obtain rfl : k = ss.length := by simp only at hn hnum; omega
    rfl
  | succ n ih =>
    have hlt : it.numRead < it.samples.length := by omega
    have hs := getElem?_eq_getElem hlt
    rw [drop_eq_getElem_cons hlt] at hrest
    rw [seekLoop_step hbefore hs (hvt _ (getElem_mem hlt))]
    exact @ih ⟨it.samples, it.numRead + 1⟩ hvt
      (before_succ hs (hrest _ mem_cons_self)) hlt
      (fun s' hs' => hrest s' (mem_cons_of_mem _ hs')) (by simp only; omega)

end

variable (it)

@[simp] lemma next_samples : it.next.2.samples = it.samples := by
  unfold next
  split <;> rfl

lemma seekLoop_samples (t : ℤ) (fuel : ℕ) (it : ChunkIterator V) :
    (seekLoop t fuel it).2.samples = it.samples := by
  induction fuel generalizing it with
  | zero => rfl
  | succ fuel ih =>
    unfold seekLoop
    split
    · rfl
    split
    · next h => rw [← next_samples it, h]
    · next h => rw [ih, ← next_samples it, h]

lemma mem_of_cur {it : ChunkIterator V} {x : TSample V} (h : it.cur = some x) : x ∈ it.samples := by
  unfold cur at h
  split at h
  · cases h
  · exact mem_of_getElem? h

lemma seek_samples (t : ℤ) : (it.seek t).2.samples = it.samples :=
  seekLoop_samples t _ it

variable {it}

/-- What `Rep` of the interface is here. After the last sample the iterator still holds it, but is
not said to stand at it. -/
structure Rep (it : ChunkIterator V) (all : List (TSample V)) (cur : Option (TSample V))
    (rest : List (TSample V)) : Prop where
  samples_eq : it.samples = all
  increasing : Increasing all
  numRead_le : it.numRead ≤ all.length
  rest_eq : all.drop it.numRead = rest
  cur_eq : cur = it.cur ∨ cur = none ∧ rest = []

lemma rep_iterator : Rep c.iterator c.samples none c.samples :=
  ⟨rfl, c.increasing, Nat.zero_le _, rfl, .inl rfl⟩

variable {all rest : List (TSample V)} {cu : Option (TSample V)}

lemma Rep.cur_of_some (h : Rep it all (some s) rest) : it.cur = some s := by
  rcases h.cur_eq with hcur | ⟨hcur, -⟩
  · exact hcur.symm
  · cases hcur

/-- The samples before the current one are those that have been read. -/
lemma Rep.suffix (h : Rep it all cu rest) : cu.toList ++ rest <:+ all := by
  obtain ⟨rfl, -, hnum, rfl, rfl | ⟨rfl, -⟩⟩ := h
  · obtain ⟨ss, _ | n⟩ := it
    · exact suffix_refl _
    have hs := getElem?_eq_getElem (show n < ss.length from hnum)
    simp only [ChunkIterator.cur, hs, Option.toList_some, singleton_append]
    rw [← drop_eq_getElem_cons]
    exact drop_suffix n ss
  · exact drop_suffix _ _

lemma Rep.before (h : Rep it all cu rest) (ht : ∀ s ∈ all, s.t < t) : it.Before t :=
  fun s hs => ht s (h.samples_eq ▸ mem_of_cur hs)

/-- The iterator stands at the sample that it has read last. -/
lemma rep_succ {n : ℕ} (hinc : Increasing all) (hdrop : all.drop n = s :: rest) :
    Rep ⟨all, n + 1⟩ all (some s) rest := by
  have hs : all[n]? = some s := by rw [← head?_drop, hdrop, head?_cons]
  refine ⟨rfl, hinc, (List.getElem?_eq_some_iff.1 hs).1, ?_, .inl hs.symm⟩
  rw [← drop_drop, hdrop, drop_one, tail_cons]

end ChunkIterator

open ChunkIterator in
theorem chunkIterator_lawful [Inhabited V] : (chunkIterator V).Lawful Rep where
  increasing h := h.increasing
  suffix h := h.suffix
  atT_eq h := by simp [chunkIterator, h.cur_of_some]
  atV_eq h := by simp [chunkIterator, h.cur_of_some]
  err_eq _ := rfl
  next_cons := by
    rintro it all cu s rest ⟨rfl, hinc, -, hrest, -⟩
    have hs : it.samples[it.numRead]? = some s := by
      rw [← head?_drop, hrest, head?_cons]
    exact ⟨_, next_of_getElem? hs, rep_succ hinc hrest⟩
  next_nil := by
    rintro it all cu ⟨rfl, hinc, hnum, hrest, -⟩
    exact ⟨it, next_of_le (drop_eq_nil_iff.1 hrest), rfl, hinc, hnum, hrest, .inr ⟨rfl, rfl⟩⟩
  seek_stay := by
    intro it all s rest t h hle
    exact ⟨it, seekLoop_stay h.cur_of_some hle _, h⟩
  seek_forward := by
    rintro it all cu pre s rest t ⟨rfl, hinc, hnum, hrest, hcur⟩ hlt hpre hle
    have hbefore : it.Before t := by
      rcases hcur with rfl | ⟨-, hnil⟩
      · exact hlt
      · simp at hnil
    refine ⟨_, seek_found hinc.vt_ne hbefore hrest hpre hle, rep_succ hinc ?_⟩
    rw [← drop_drop, hrest, drop_left]
  seek_none := by
    intro it all cu rest t h ht
    have hbefore := h.before ht
    obtain ⟨rfl, hinc, hnum, hrest, -⟩ := h
    refine ⟨_, seekLoop_none hinc.vt_ne hbefore hnum
      fun s hs => ht s (mem_of_mem_drop hs), rfl, hinc, le_rfl, ?_, .inr ⟨rfl, rfl⟩⟩
    exact drop_length

end Prometheus.Chunkenc
