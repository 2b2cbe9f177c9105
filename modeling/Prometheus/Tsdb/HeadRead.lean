import Prometheus.Lib.Cursor
import Prometheus.Chunkenc.ChunkIterator
import Prometheus.Tsdb.TxRing

/-!
# Isolation of reads of the head

`memSeries.iterator` and `stopIterator` of `tsdb/head_read.go`: a read of a chunk of a series in the
head must not go beyond the first sample of the series that its isolation state hides, and which
sample that is follows from the append IDs in the ring of the series.

The wrapper that ends an iterator early has a `Next` of its own, but the `Seek` of the iterator that
it wraps. So a walk with `Next` is isolated, and a walk with `Seek` may not be.
-/

namespace Prometheus.Tsdb

open Chunkenc Cursor List Option

variable {V : Type}

/-- The isolation state of a read. -/
structure IsolationState where
  maxAppendID : BitVec 64
  incompleteAppends : Finset (BitVec 64)
  isolationDisabled : Bool

/-- A series in the head. `mmappedChunks` has the newest chunk at the end, the linked list
`headChunks` has it in front. -/
structure MemSeries (V : Type) where
  mmappedChunks : List (Chunk V)
  headChunks : List (Chunk V)
  firstChunkID : ℕ
  txs : TxRing

/-- What `memSeries.iterator` returns: a `nopIterator`, an iterator of the chunk, or a
`stopIterator`. -/
inductive HeadIterator (V : Type)
  | nop
  | chunk (it : ChunkIterator V)
  | stop (it : ChunkIterator V) (i stopAfter : ℤ)

namespace HeadIterator

def next : HeadIterator V → ValueType × HeadIterator V
  | nop => (.valNone, nop)
  | chunk it => (it.next.1, chunk it.next.2)
  | stop it i stopAfter =>
    if i + 1 ≥ stopAfter then (.valNone, stop it i stopAfter)
    else (it.next.1, stop it.next.2 (i + 1) stopAfter)

/-- A `stopIterator` has the `Seek` of the iterator it embeds. -/
def seek (t : ℤ) : HeadIterator V → ValueType × HeadIterator V
  | nop => (.valNone, nop)
  | chunk it => ((it.seek t).1, chunk (it.seek t).2)
  | stop it i stopAfter => ((it.seek t).1, stop (it.seek t).2 i stopAfter)

/-- The sample at the position of an iterator. -/
def cur : HeadIterator V → Option (TSample V)
  | nop => none
  | chunk it => it.cur
  | stop it _ _ => it.cur

def call (it : HeadIterator V) : Call ℤ → ValueType × HeadIterator V
  | .next => it.next
  | .seek t => it.seek t

/-- The samples that a sequence of calls exposes: those at which a call finds a value. -/
def exposed : HeadIterator V → List (Call ℤ) → List (TSample V)
  | _, [] => []
  | it, c :: cs =>
    (if (it.call c).1 = .valNone then [] else (it.call c).2.cur.toList) ++ exposed (it.call c).2 cs

end HeadIterator

variable {r : ℕ}

namespace MemSeries

/-- The loops over chunks from the oldest to the newest, which count all samples and those of the
chunks before index `ix`. -/
def countLoop (ix : ℤ) : ℕ → List (Chunk V) → ℤ × ℤ → ℤ × ℤ
  | _, [], counts => counts
  | j, d :: ds, (totalSamples, previousSamples) =>
    countLoop ix (j + 1) ds (totalSamples + d.numSamples,
      if j < ix then previousSamples + d.numSamples else previousSamples)

/-- The append IDs that a read must not see. -/
def hides (isoState : IsolationState) (appendID : BitVec 64) : Bool :=
  !(appendID ≤ isoState.maxAppendID && appendID ∉ isoState.incompleteAppends)

/-- The loop over the append IDs, with so many of them left to consider. -/
def stopLoop (isoState : IsolationState) (numSamples : ℤ) : ℕ → TxRing.Iterator → Option ℤ
  | 0, _ => some numSamples
  | left + 1, it => do
    let appendID ← it.atID
    if hides isoState appendID then
      let stopAfter := numSamples - (left + 1)
      -- Stopped in a previous chunk.
      return if stopAfter < 0 then 0 else stopAfter
    else stopLoop isoState numSamples left it.next

variable (s : MemSeries V)

/-- The number of samples of a chunk to return. -/
def stopAfter (id : ℕ) (numSamples : ℤ) : Option IsolationState → Option ℤ
  | none => some numSamples
  | some isoState =>
    if isoState.isolationDisabled then some numSamples
    else
      let ix : ℤ := id - s.firstChunkID
      let counts := countLoop ix 0 s.mmappedChunks (0, 0)
      let (totalSamples, previousSamples) :=
        countLoop (ix - s.mmappedChunks.length) 0 s.headChunks.reverse counts
      -- Removing the extra transactionIDs that are relevant for samples that come after this chunk,
      -- from the total transactionIDs.
      let appendIDsToConsider :=
        s.txs.txIDCount - (totalSamples - (previousSamples + numSamples))
      stopLoop isoState numSamples appendIDsToConsider.toNat s.txs.iterator

/-- `memSeries.iterator`. Without a result, it panics. -/
def iterator (id : ℕ) (c : Chunk V) (isoState : Option IsolationState) : Option (HeadIterator V) :=
  (s.stopAfter id c.numSamples isoState).map fun (stopAfter : ℤ) =>
    if stopAfter = 0 then .nop
    else if stopAfter = c.numSamples then .chunk c.iterator
    else .stop c.iterator (-1) stopAfter

/-! ### What a read may see -/

/-- The chunks, from the oldest to the newest. -/
def chunks : List (Chunk V) :=
  s.mmappedChunks ++ s.headChunks.reverse

/-- The number of samples in the first `ix` chunks. -/
def samplesBefore (ix : ℕ) : ℕ :=
  ((s.chunks.take ix).map Chunk.numSamples).sum

def totalSamples : ℕ :=
  (s.chunks.map Chunk.numSamples).sum

/-- Neither the `j`-th sample of the series nor one before it is hidden. The append IDs in the ring
are those of the last samples, so it has an ID for those from `totalSamples - txIDCount` on; an ID
that is not in the ring any more is one that every read may see. -/
def Visible (isoState : Option IsolationState) (j : ℕ) : Prop :=
  ∀ st ∈ isoState, st.isolationDisabled = false →
    ∀ appendID ∈ s.txs.contents.take (j + 1 + s.txs.txIDCount - s.totalSamples),
      hides st appendID = false

instance (s : MemSeries V) (isoState : Option IsolationState) (j : ℕ) :
    Decidable (s.Visible isoState j) :=
  inferInstanceAs (Decidable (∀ st ∈ isoState, _ → ∀ appendID ∈ _, _))

/-- The samples of a chunk that come before the first sample that is hidden. -/
def visibleSamples (isoState : Option IsolationState) (ix : ℕ) (c : Chunk V) : List (TSample V) :=
  c.samples.zipIdx.filterMap fun (x, m) =>
    if s.Visible isoState (s.samplesBefore ix + m) then some x else none

/-! ### The number of samples to return -/

lemma countLoop_eq (ix : ℤ) (j : ℕ) (ds : List (Chunk V)) (counts : ℤ × ℤ) :
    countLoop ix j ds counts = (counts.1 + (ds.map Chunk.numSamples).sum,
      counts.2 + ((ds.take (ix - j).toNat).map Chunk.numSamples).sum) := by
  induction ds generalizing j counts with
  | nil => simp [countLoop]
  | cons d ds ih =>
    rw [countLoop, ih]
    by_cases hj : (j : ℤ) < ix
    · have htake : (ix - j).toNat = (ix - (j + 1 : ℕ)).toNat + 1 := by omega
      simp only [hj, if_true, htake, take_succ_cons, map_cons, sum_cons]
      push_cast
      exact Prod.ext (by ring) (by ring)
    have htake : (ix - j).toNat = 0 ∧ (ix - (j + 1 : ℕ)).toNat = 0 := by omega
    simp only [hj, if_false, htake.1, htake.2, take_zero, map_cons, sum_cons]
    push_cast
    exact Prod.ext (by ring) rfl

/-- What the two loops count for the chunk at index `ix`. -/
lemma counts_eq (ix : ℕ) :
    countLoop ((s.firstChunkID + ix : ℕ) - s.firstChunkID - s.mmappedChunks.length) 0
        s.headChunks.reverse (countLoop ((s.firstChunkID + ix : ℕ) - s.firstChunkID) 0
          s.mmappedChunks (0, 0)) =
      ((s.totalSamples : ℤ), (s.samplesBefore ix : ℤ)) := by
  have hix : ((s.firstChunkID + ix : ℕ) - s.firstChunkID : ℤ) = ix := by omega
  have hhead : ((ix : ℤ) - s.mmappedChunks.length - (0 : ℕ)).toNat =
      ix - s.mmappedChunks.length := by omega
  have hmm : ((ix : ℤ) - (0 : ℕ)).toNat = ix := by omega
  rw [countLoop_eq, countLoop_eq, hix, hhead, hmm]
  simp only [totalSamples, samplesBefore, chunks, take_append, map_append, sum_append, zero_add]
  rfl

/-- The loop stops at the first append ID that is hidden: so many samples are left that no ID up to
theirs is. -/
lemma stopLoop_spec {txr : TxRing} (hvalid : txr.Valid) (isoState : IsolationState) (n : ℕ)
    {left k : ℕ} (hleft : k + left ≤ txr.txIDCount) {it : TxRing.Iterator} (hit : it.After txr k) :
    ∃ r : ℕ, stopLoop isoState n left it = some (r : ℤ) ∧ r ≤ n ∧ ∀ m < n,
      (m < r ↔ ∀ id ∈ (txr.contents.drop k).take (m + 1 + left - n),
      hides isoState id = false) := by
  induction left generalizing k it with
  | zero =>
    refine ⟨n, rfl, le_rfl, fun m hm => ?_⟩
    rw [show m + 1 + 0 - n = 0 by omega]
    simpa using hm
  | succ left ih =>
    have hk : k < txr.contents.length := by rw [hvalid.length_contents]; omega
    have hat := hit.atID hvalid (by omega)
    rw [getElem?_eq_getElem hk] at hat
    rw [drop_eq_getElem_cons hk]
    by_cases hhide : hides isoState txr.contents[k] = true
    · refine ⟨n - (left + 1), ?_, by omega, fun m hm => ?_⟩
      · simp only [stopLoop, hat, hhide, if_true, bind_eq_bind, bind_some,
          Option.pure_def, some.injEq]
        split_ifs <;> omega
      · constructor
        · intro hlt
          rw [show m + 1 + (left + 1) - n = 0 by omega]
          simp
        · intro hall
          by_contra hge
          rw [show m + 1 + (left + 1) - n = (m + 1 + left - n) + 1 by omega, take_succ_cons] at hall
          simp [hall _ mem_cons_self] at hhide
    · obtain ⟨r, hr, hle, hiff⟩ := ih (by omega) (hit.next (by have := hvalid.count_le; omega))
      refine ⟨r, ?_, hle, fun m hm => ?_⟩
      · simpa [stopLoop, hat, hhide] using hr
      rw [hiff m hm]
      rcases Nat.lt_or_ge (m + 1 + left) n with hlt | hge
      · rw [show m + 1 + left - n = 0 by omega, show m + 1 + (left + 1) - n = 0 by omega]
        simp
      rw [show m + 1 + (left + 1) - n = (m + 1 + left - n) + 1 by omega, take_succ_cons,
        forall_mem_cons]
      simp [hhide]

/-- The samples returned are the visible ones. -/
lemma stopAfter_spec {s : MemSeries V} (hvalid : s.txs.Valid) (isoState : Option IsolationState)
    {ix n : ℕ} (hn : s.samplesBefore ix + n ≤ s.totalSamples) :
    ∃ r : ℕ, s.stopAfter (s.firstChunkID + ix) n isoState = some (r : ℤ) ∧ r ≤ n ∧
      ∀ m < n, (m < r ↔ s.Visible isoState (s.samplesBefore ix + m)) := by
  cases isoState with
  | none => exact ⟨n, rfl, le_rfl, fun m hm => by simp [Visible, hm]⟩
  | some st =>
    by_cases hdisabled : st.isolationDisabled = true
    · exact ⟨n, by simp [stopAfter, hdisabled], le_rfl,
        fun m hm => by simp [Visible, hm, hdisabled]⟩
    have hconsider : 0 + (s.txs.txIDCount - (s.totalSamples - (s.samplesBefore ix + n) : ℤ)).toNat ≤
        s.txs.txIDCount := by omega
    obtain ⟨r, hr, hle, hiff⟩ := stopLoop_spec hvalid st n hconsider hvalid.after_iterator
    refine ⟨r, ?_, hle, fun m hm => ?_⟩
    · rw [stopAfter, if_neg hdisabled]
      simp only [counts_eq]
      exact hr
    have hcount : m + 1 + (s.txs.txIDCount - (s.totalSamples -
        (s.samplesBefore ix + n) : ℤ)).toNat - n =
          s.samplesBefore ix + m + 1 + s.txs.txIDCount - s.totalSamples := by omega
    rw [hiff m hm, hcount, drop_zero]
    simp [Visible, hdisabled]

/-- Indices up to a bound pick a prefix. -/
lemma filterMap_zipIdx_eq_take {α : Type*} (P : ℕ → Prop) [DecidablePred P] (as : List α)
    (j : ℕ) (hP : ∀ m, j ≤ m → m < j + as.length → (m < r ↔ P m)) :
    ((as.zipIdx j).filterMap fun (x, m) => if P m then some x else none) = as.take (r - j) := by
  induction as generalizing j with
  | nil => simp
  | cons a as ih =>
    have htail := ih (j + 1) fun m hjm hm => hP m (by omega) (by rw [length_cons]; omega)
    have hhead := hP j le_rfl (by rw [length_cons]; omega)
    rw [zipIdx_cons]
    by_cases hj : j < r
    · rw [filterMap_cons_some (b := a) (by simp [hhead.1 hj]), htail,
        show r - j = r - (j + 1) + 1 by omega, take_succ_cons]
    rw [filterMap_cons_none (by simp [mt hhead.2 hj]), htail, show r - j = 0 by omega,
      show r - (j + 1) = 0 by omega]
    rfl

end MemSeries

variable {ss : List (TSample V)} {it : HeadIterator V}

namespace HeadIterator

/-- An iterator of a chunk exposes samples of the chunk. -/
lemma exposed_chunk_subset (it : ChunkIterator V) (calls : List (Call ℤ)) :
    exposed (chunk it) calls ⊆ it.samples := by
  induction calls generalizing it with
  | nil => exact nil_subset _
  | cons c cs ih =>
    obtain ⟨it', vt, hcall, hsamples⟩ : ∃ it' vt, (chunk it).call c = (vt, chunk it') ∧
        it'.samples = it.samples := by
      cases c with
      | next => exact ⟨_, _, rfl, it.next_samples⟩
      | seek t => exact ⟨_, _, rfl, it.seek_samples t⟩
    simp only [exposed, hcall]
    refine append_subset.2 ⟨?_, hsamples ▸ ih it'⟩
    split_ifs
    · exact nil_subset _
    intro x hx
    rw [← hsamples]
    exact ChunkIterator.mem_of_cur (mem_toList.1 hx)

lemma exposed_nop (calls : List (Call ℤ)) : exposed (nop : HeadIterator V) calls = [] := by
  induction calls with
  | nil => rfl
  | cons c cs ih => cases c <;> exact ih

/-- One `Next` that finds a sample. -/
lemma exposed_next {it' : HeadIterator V} {x : TSample V} (hnext : it.next = (x.vt, it'))
    (hcur : it'.cur = some x) (hvt : x.vt ≠ .valNone) (cs : List (Call ℤ)) :
    exposed it (.next :: cs) = x :: exposed it' cs := by
  simp [exposed, call, hnext, hcur, hvt]

/-- A `Next` that finds none and goes nowhere finds none ever after. -/
lemma exposed_replicate_next_of_none (hnext : it.next = (.valNone, it))
    (m : ℕ) : exposed it (replicate m .next) = [] := by
  induction m with
  | zero => rfl
  | succ m ih => simpa [replicate_succ, exposed, call, hnext] using ih

/-- A walk over a chunk exposes its samples. -/
lemma exposed_chunk_next (hvt : ∀ x ∈ ss, x.vt ≠ .valNone) (a m : ℕ) :
    exposed (chunk ⟨ss, a⟩) (replicate m .next) = (ss.drop a).take m := by
  induction m generalizing a with
  | zero => rfl
  | succ m ih =>
    rcases Nat.lt_or_ge a ss.length with ha | ha
    · have hget := getElem?_eq_getElem ha
      have hnext : (chunk ⟨ss, a⟩).next = (ss[a].vt, chunk ⟨ss, a + 1⟩) := by
        simp [next, ChunkIterator.next, hget]
      rw [replicate_succ, exposed_next hnext hget (hvt _ (getElem_mem ha)), ih,
        drop_eq_getElem_cons ha, take_succ_cons]
    · have hnext := @ChunkIterator.next_of_le _ ⟨ss, a⟩ ha
      rw [exposed_replicate_next_of_none (by rw [next, hnext]), drop_eq_nil_iff.2 ha, take_nil]

/-- A walk over a chunk with a stop exposes the samples before the stop. -/
lemma exposed_stop_next (hvt : ∀ x ∈ ss, x.vt ≠ .valNone) (hr : r ≤ ss.length) (a m : ℕ) :
    exposed (stop ⟨ss, a⟩ (a - 1) r) (replicate m .next) = ((ss.take r).drop a).take m := by
  induction m generalizing a with
  | zero => rfl
  | succ m ih =>
    rcases Nat.lt_or_ge a r with ha | ha
    · have ha' : a < ss.length := by omega
      have hget := getElem?_eq_getElem ha'
      have hnext : (stop ⟨ss, a⟩ (a - 1) r).next =
          (ss[a].vt, stop ⟨ss, a + 1⟩ ((a + 1 : ℕ) - 1) r) := by
        rw [next, if_neg (by omega), @ChunkIterator.next_of_getElem? _ ⟨ss, a⟩ _ hget]
        simp
      have hlen : a < (ss.take r).length := by rw [length_take]; omega
      rw [replicate_succ, exposed_next hnext hget (hvt _ (getElem_mem ha')), ih,
        drop_eq_getElem_cons hlen, take_succ_cons, getElem_take]
    · have hdrop : (ss.take r).drop a = [] := by
        rw [drop_eq_nil_iff, length_take]
        omega
      rw [exposed_replicate_next_of_none (by rw [next, if_pos (by omega)]), hdrop, take_nil]

/-- A `Seek` on a chunk with a stop finds a sample after the stop. -/
lemma exposed_stop_seek (c : Chunk V) (i : ℤ) (stopAfter : ℤ) (hr : r < c.samples.length) :
    exposed (stop c.iterator i stopAfter) [.seek c.samples[r].t] = [c.samples[r]] := by
  have hsplit : c.samples = c.samples.take r ++ c.samples[r] :: c.samples.drop (r + 1) := by
    rw [← drop_eq_getElem_cons hr, take_append_drop]
  have hpre : ∀ x ∈ c.samples.take r, x.t < c.samples[r].t := by
    have hsorted := c.increasing.sorted
    rw [hsplit, pairwise_append] at hsorted
    exact fun x hx => hsorted.2.2 x hx _ mem_cons_self
  have hseek : c.iterator.seek c.samples[r].t =
      (c.samples[r].vt, ⟨c.samples, 0 + (c.samples.take r).length + 1⟩) :=
    ChunkIterator.seek_found c.increasing.vt_ne (by simp [ChunkIterator.Before, Chunk.iterator,
      ChunkIterator.cur]) hsplit hpre le_rfl
  have hlen : (c.samples.take r).length = r := by rw [length_take]; omega
  have hcur : (⟨c.samples, r + 1⟩ : ChunkIterator V).cur = some c.samples[r] :=
    getElem?_eq_getElem hr
  rw [hlen, Nat.zero_add] at hseek
  simp [exposed, call, seek, hseek, cur, hcur, c.increasing.vt_ne _ (getElem_mem hr)]

end HeadIterator

/-! ### Isolation -/

namespace MemSeries

variable {s : MemSeries V}

lemma samplesBefore_add_le {ix : ℕ} {chunk : Chunk V} (hchunk : s.chunks[ix]? = some chunk) :
    s.samplesBefore ix + chunk.numSamples ≤ s.totalSamples := by
  obtain ⟨hlt, rfl⟩ := List.getElem?_eq_some_iff.1 hchunk
  have hsplit : s.chunks = s.chunks.take ix ++ s.chunks[ix] :: s.chunks.drop (ix + 1) := by
    rw [← drop_eq_getElem_cons hlt, take_append_drop]
  have hsum : s.totalSamples = s.samplesBefore ix + (s.chunks[ix].numSamples +
      ((s.chunks.drop (ix + 1)).map Chunk.numSamples).sum) := by
    rw [samplesBefore, ← sum_cons, ← map_cons, ← sum_append, ← map_append, ← hsplit, totalSamples]
  omega

/-- A walk with `Next` exposes the visible samples of a chunk, of which `c` may be an older copy.
All sequences of calls expose visible samples only if and only if the chunk has no sample that is
visible or no sample that is not. -/
theorem iterator_exposed_iff (hvalid : s.txs.Valid) (isoState : Option IsolationState) {ix : ℕ}
    {chunk c : Chunk V} (hchunk : s.chunks[ix]? = some chunk) (hc : c.samples <+: chunk.samples) :
    ∃ it, s.iterator (s.firstChunkID + ix) c isoState = some it ∧
      (∀ m, it.exposed (List.replicate m .next) = (s.visibleSamples isoState ix c).take m) ∧
      ((∀ calls, ∀ x ∈ it.exposed calls, x ∈ s.visibleSamples isoState ix c) ↔
        s.visibleSamples isoState ix c = [] ∨ s.visibleSamples isoState ix c = c.samples) := by
  have hn : s.samplesBefore ix + c.numSamples ≤ s.totalSamples :=
    (Nat.add_le_add_left hc.length_le _).trans (samplesBefore_add_le hchunk)
  obtain ⟨r, hr, hle, hiff⟩ := stopAfter_spec hvalid isoState hn
  have hvisible : s.visibleSamples isoState ix c = c.samples.take r :=
    filterMap_zipIdx_eq_take (fun m => s.Visible isoState (s.samplesBefore ix + m)) c.samples 0
      fun m _ hm => hiff m (by simpa [Chunk.numSamples] using hm)
  have hvt := c.increasing.vt_ne
  rw [hvisible, iterator, hr, map_some]
  refine ⟨_, rfl, ?_⟩
  rcases Nat.eq_zero_or_pos r with rfl | hpos
  · rw [if_pos (by rfl), take_zero]
    exact ⟨fun m => by rw [HeadIterator.exposed_nop, take_nil],
      fun _ => .inl rfl, fun _ calls => by rw [HeadIterator.exposed_nop]; simp⟩
  rw [if_neg (by omega)]
  rcases hle.eq_or_lt with rfl | hlt
  · rw [if_pos rfl, Chunk.numSamples, take_length]
    exact ⟨fun m => HeadIterator.exposed_chunk_next hvt 0 m, fun _ => .inr rfl,
      fun _ calls => HeadIterator.exposed_chunk_subset c.iterator calls⟩
  rw [if_neg (by omega)]
  refine ⟨fun m => HeadIterator.exposed_stop_next hvt hle 0 m, fun hall => ?_, ?_⟩
  · -- the sample at the stop is exposed, so it would have to be before the stop
    have hmem := hall [.seek c.samples[r].t] c.samples[r]
      (by rw [HeadIterator.exposed_stop_seek c _ _ hlt]; exact mem_singleton_self _)
    have hsorted := c.increasing.sorted
    rw [← take_append_drop r c.samples, drop_eq_getElem_cons hlt, pairwise_append] at hsorted
    exact absurd (hsorted.2.2 _ hmem _ mem_cons_self) (lt_irrefl _)
  have hlen : (c.samples.take r).length = r := by
    rw [length_take]
    exact Nat.min_eq_left hle
  rintro (hnil | hfull)
  · rw [hnil] at hlen
    exact absurd hlen hpos.ne
  · rw [hfull] at hlen
    exact absurd hlen hlt.ne'

section SeekHidden

/-- A sample at each of the times 1, 2 and 3. -/
def threeSamples : Chunk ℕ where
  samples := [⟨1, .valFloat, 10⟩, ⟨2, .valFloat, 20⟩, ⟨3, .valFloat, 30⟩]
  increasing := ⟨by simp, by simp⟩
  length_lt := by decide

/-- A series with one chunk, whose samples have the append IDs 5, 6 and 7. -/
def threeAppends : MemSeries ℕ := ⟨[], [threeSamples], 0, ⟨[5, 6, 7, 0], 0, 3⟩⟩

/-- A read that may see the appends up to 5. -/
def upTo5 : IsolationState := ⟨5, ∅, false⟩

/-- The samples of the appends 6 and 7 are hidden, but `Seek(3)` exposes the last one. -/
theorem iterator_seek_hidden : ∃ it, threeAppends.iterator 0 threeSamples (some upTo5) = some it ∧
    it.exposed [.seek 3] = [⟨3, .valFloat, 30⟩] ∧
    threeAppends.visibleSamples (some upTo5) 0 threeSamples = [⟨1, .valFloat, 10⟩] := by
  have hstop : threeAppends.stopAfter 0 3 (some upTo5) = some 1 := by decide +kernel
  refine ⟨.stop threeSamples.iterator (-1) 1, ?_, rfl, ?_⟩
  · change (threeAppends.stopAfter 0 3 (some upTo5)).map _ = _
    rw [hstop]
    rfl
  have hcontents : threeAppends.txs.contents = [5, 6, 7] := by decide
  have hcount : threeAppends.txs.txIDCount = 3 := rfl
  have htotal : threeAppends.totalSamples = 3 := rfl
  simp [visibleSamples, threeSamples, samplesBefore, Visible, hcontents, hcount, htotal, hides,
    upTo5]

/-- Without a seek, the samples that are exposed are visible ones. -/
theorem iterator_exposed_iff_three :
    ∃ it, threeAppends.iterator 0 threeSamples (some upTo5) = some it ∧
      ∀ m, it.exposed (List.replicate m .next) =
        (threeAppends.visibleSamples (some upTo5) 0 threeSamples).take m := by
  have hvalid : threeAppends.txs.Valid := ⟨.inl (by decide), by decide⟩
  obtain ⟨it, hit, hnext, -⟩ := iterator_exposed_iff hvalid (some upTo5)
    (show threeAppends.chunks[0]? = some threeSamples from rfl) (prefix_refl _)
  exact ⟨it, hit, hnext⟩

end SeekHidden

end MemSeries

end Prometheus.Tsdb
