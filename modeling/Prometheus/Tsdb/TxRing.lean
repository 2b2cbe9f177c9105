import Prometheus.Lib.Ring

/-!
# The ring of append IDs

`txRing` of `tsdb/isolation.go`: a series keeps the append IDs of its latest samples, for as long as
there may be a read that must not see them. The ring is a queue, from which the IDs below a bound
are dropped (`TxRing.run_refines`).

Counters are natural numbers: the code's are unsigned 32 bit integers, which a ring of that many IDs
would overflow.
-/

namespace Prometheus.Tsdb

open List

/-- `txRing`: the append IDs of a series, in a buffer that wraps around. -/
structure TxRing where
  txIDs : List (BitVec 64)
  txIDFirst : ℕ
  txIDCount : ℕ

namespace TxRing

variable (capacity : ℕ)

def newTxRing : TxRing :=
  ⟨List.replicate capacity 0, 0, 0⟩

variable (txr : TxRing)

/-- The first half of `add`: a full ring is expanded by doubling. -/
def expand : TxRing :=
  if txr.txIDCount = txr.txIDs.length then
    let newLen := if txr.txIDCount * 2 = 0 then 4 else txr.txIDCount * 2
    let ids := txr.txIDs.drop txr.txIDFirst ++ txr.txIDs.take txr.txIDFirst
    ⟨ids ++ List.replicate (newLen - ids.length) 0, 0, txr.txIDCount⟩
  else txr

/-- `add` -/
def add (appendID : BitVec 64) : TxRing :=
  let txr := txr.expand
  ⟨txr.txIDs.set ((txr.txIDFirst + txr.txIDCount) % txr.txIDs.length) appendID, txr.txIDFirst,
    txr.txIDCount + 1⟩

/-- The loop of `cleanupAppendIDsBelow`, on `txIDCount`, `txIDFirst` and `pos`. Without a result, it
panics. -/
def cleanupLoop (txIDs : List (BitVec 64)) (bound : BitVec 64) : ℕ → ℕ → ℕ → Option (ℕ × ℕ)
  | 0, first, _ => some (first, 0)
  | count + 1, first, pos => do
    let id ← txIDs[pos]?
    if id ≥ bound then return (first, count + 1)
    let pos := pos + 1
    cleanupLoop txIDs bound count (first + 1) (if pos = txIDs.length then 0 else pos)

/-- `cleanupAppendIDsBelow`. Without a result, it panics. -/
def cleanupAppendIDsBelow (bound : BitVec 64) : Option TxRing :=
  if txr.txIDs.length = 0 then some txr
  else
    (cleanupLoop txr.txIDs bound txr.txIDCount txr.txIDFirst txr.txIDFirst).map fun r =>
      ⟨txr.txIDs, r.1 % txr.txIDs.length, r.2⟩

/-- `txRingIterator`: it goes around the ring, and does not end. -/
structure Iterator where
  ids : List (BitVec 64)
  pos : ℕ

def iterator : Iterator :=
  ⟨txr.txIDs, txr.txIDFirst⟩

/-- `At`. Without a result, it panics. -/
def Iterator.atID (it : Iterator) : Option (BitVec 64) :=
  it.ids[it.pos]?

def Iterator.next (it : Iterator) : Iterator :=
  { it with pos := if it.pos + 1 = it.ids.length then 0 else it.pos + 1 }

/-- A state in which the ring can be read. -/
structure Valid (txr : TxRing) : Prop where
  first_lt : txr.txIDFirst < txr.txIDs.length ∨ txr.txIDs = []
  count_le : txr.txIDCount ≤ txr.txIDs.length

/-- The append IDs in the ring, from the oldest on. -/
def contents (txr : TxRing) : List (BitVec 64) :=
  Ring.contents txr.txIDs txr.txIDFirst txr.txIDCount

variable {txr : TxRing}

lemma Valid.length_contents (h : txr.Valid) : txr.contents.length = txr.txIDCount :=
  Ring.length_contents h.count_le

/-! ### Operations -/

lemma valid_newTxRing : (newTxRing capacity).Valid where
  first_lt := by
    cases capacity with
    | zero => exact .inr rfl
    | succ n => exact .inl (by simp [newTxRing])
  count_le := Nat.zero_le _

/-- Expanding makes room, and keeps the contents. -/
lemma Valid.expand (h : txr.Valid) :
    txr.expand.txIDFirst < txr.expand.txIDs.length ∧
      txr.expand.txIDCount < txr.expand.txIDs.length ∧ txr.expand.contents = txr.contents := by
  unfold TxRing.expand
  by_cases hfull : txr.txIDCount = txr.txIDs.length
  · -- the copies of the two parts are the ring, rotated
    have hrotate : txr.txIDs.drop txr.txIDFirst ++ txr.txIDs.take txr.txIDFirst =
        txr.txIDs.rotate txr.txIDFirst := by
      rcases h.first_lt with hlt | hnil
      · exact (rotate_eq_drop_append_take hlt.le).symm
      · simp [hnil]
    have hnew : txr.txIDCount < if txr.txIDCount * 2 = 0 then 4 else txr.txIDCount * 2 := by
      split_ifs <;> omega
    rw [if_pos hfull]
    generalize (if txr.txIDCount * 2 = 0 then 4 else txr.txIDCount * 2) = newLen at hnew ⊢
    simp only [hrotate]
    have hroom : txr.txIDCount < (txr.txIDs.rotate txr.txIDFirst ++ replicate
        (newLen - (txr.txIDs.rotate txr.txIDFirst).length) (0 : BitVec 64)).length := by
      rw [length_append, length_replicate, length_rotate]
      omega
    refine ⟨Nat.zero_lt_of_lt hroom, hroom, ?_⟩
    rw [contents, contents, Ring.contents, Ring.contents, rotate_zero, hfull,
      take_append_of_le_length (by rw [length_rotate])]
  · rw [if_neg hfull]
    have hroom := lt_of_le_of_ne h.count_le hfull
    exact ⟨h.first_lt.resolve_right fun hnil => by simp [hnil] at hroom, hroom, rfl⟩

lemma Valid.add (h : txr.Valid) (appendID : BitVec 64) :
    (txr.add appendID).Valid ∧ (txr.add appendID).contents = txr.contents ++ [appendID] := by
  obtain ⟨hfirst, hroom, hcontents⟩ := h.expand
  refine ⟨⟨.inl ?_, ?_⟩, ?_⟩
  · simpa [TxRing.add] using hfirst
  · rw [TxRing.add, length_set]
    exact hroom
  · rw [← hcontents]
    exact Ring.contents_set hroom appendID

/-- The loop drops the IDs below the bound. -/
lemma cleanupLoop_spec {txIDs : List (BitVec 64)} (bound : BitVec 64) {count : ℕ}
    (hcount : count ≤ txIDs.length) (first : ℕ) :
    ∃ first' count', cleanupLoop txIDs bound count first (first % txIDs.length) =
        some (first', count') ∧ count' ≤ count ∧
      Ring.contents txIDs first' count' =
        (Ring.contents txIDs first count).dropWhile (· < bound) := by
  induction count generalizing first with
  | zero => exact ⟨first, 0, rfl, le_rfl, rfl⟩
  | succ count ih =>
    obtain ⟨id, hid, hcontents⟩ := @Ring.contents_succ _ txIDs first _ hcount
    rw [cleanupLoop, hid, hcontents, dropWhile_cons]
    by_cases hge : id ≥ bound
    · refine ⟨first, count + 1, by simp [hge], le_rfl, ?_⟩
      rw [if_neg (by simpa using hge), hcontents]
    -- `pos` goes around with `txIDFirst`
    have hpos := @Ring.succ_mod _ txIDs first (by omega)
    obtain ⟨first', count', hloop, hle, heq⟩ := ih (by omega) (first + 1)
    refine ⟨first', count', ?_, by omega, ?_⟩
    · simpa [hge, hpos] using hloop
    · rw [heq, if_pos (by simpa using hge)]

lemma Valid.cleanupAppendIDsBelow (h : txr.Valid) (bound : BitVec 64) :
    ∃ txr', txr.cleanupAppendIDsBelow bound = some txr' ∧ txr'.Valid ∧
      txr'.contents = txr.contents.dropWhile (· < bound) := by
  unfold TxRing.cleanupAppendIDsBelow
  split_ifs with hlen
  · refine ⟨txr, rfl, h, ?_⟩
    have hcount : txr.txIDCount = 0 := by
      have := h.count_le
      omega
    rw [contents, hcount]
    rfl
  have hfirst : txr.txIDFirst % txr.txIDs.length = txr.txIDFirst := by
    rcases h.first_lt with hlt | hnil
    · exact Nat.mod_eq_of_lt hlt
    · exact absurd (by rw [hnil]; rfl) hlen
  obtain ⟨first', count', hloop, hle, heq⟩ := cleanupLoop_spec bound h.count_le txr.txIDFirst
  rw [hfirst] at hloop
  refine ⟨⟨txr.txIDs, first' % txr.txIDs.length, count'⟩, by rw [hloop]; rfl,
    ⟨.inl (Nat.mod_lt _ (Nat.pos_of_ne_zero hlen)), hle.trans h.count_le⟩, ?_⟩
  exact Ring.contents_mod.trans heq

/-! ### Iterating -/

/-- An iterator that has done `k` steps. -/
def Iterator.After (txr : TxRing) (k : ℕ) (it : Iterator) : Prop :=
  it = ⟨txr.txIDs, (txr.txIDFirst + k) % txr.txIDs.length⟩

lemma Valid.after_iterator (h : txr.Valid) : txr.iterator.After txr 0 := by
  rcases h.first_lt with hlt | hnil
  · rw [Iterator.After, Nat.add_zero, Nat.mod_eq_of_lt hlt, iterator]
  · simp [Iterator.After, iterator, hnil]

lemma Iterator.After.atID {k : ℕ} {it : Iterator} (h : it.After txr k)
    (hvalid : txr.Valid) (hk : k < txr.txIDCount) : it.atID = txr.contents[k]? := by
  rw [h]
  exact (Ring.contents_getElem? hvalid.count_le hk).symm

lemma Iterator.After.next {k : ℕ} {it : Iterator} (h : it.After txr k)
    (hpos : 0 < txr.txIDs.length) : it.next.After txr (k + 1) := by
  rw [h, Iterator.After, Iterator.next, ← Nat.add_assoc, ← Ring.succ_mod hpos]

/-! ### Runs -/

inductive Op
  | add (appendID : BitVec 64)
  | cleanup (bound : BitVec 64)

def step (txr : TxRing) : Op → Option TxRing
  | .add appendID => some (txr.add appendID)
  | .cleanup bound => txr.cleanupAppendIDsBelow bound

/-- What an operation does to a queue of append IDs. -/
def Op.onQueue (ids : List (BitVec 64)) : Op → List (BitVec 64)
  | .add appendID => ids ++ [appendID]
  | .cleanup bound => ids.dropWhile (· < bound)

lemma Valid.step (h : txr.Valid) (op : Op) :
    ∃ txr', txr.step op = some txr' ∧ txr'.Valid ∧ txr'.contents = op.onQueue txr.contents := by
  cases op with
  | add appendID => exact ⟨_, rfl, h.add appendID⟩
  | cleanup bound => exact h.cleanupAppendIDsBelow bound

lemma Valid.run (h : txr.Valid) (ops : List Op) :
    ∃ txr', ops.foldlM TxRing.step txr = some txr' ∧ txr'.Valid ∧
      txr'.contents = ops.foldl Op.onQueue txr.contents := by
  induction ops generalizing txr with
  | nil => exact ⟨txr, rfl, h, rfl⟩
  | cons op ops ih =>
    obtain ⟨txr₁, hstep, hvalid, hcontents⟩ := h.step op
    obtain ⟨txr', hrun, hvalid', hcontents'⟩ := ih hvalid
    refine ⟨txr', ?_, hvalid', ?_⟩
    · rw [foldlM_cons, hstep]
      exact hrun
    · rw [hcontents', hcontents, foldl_cons]

lemma Valid.after_iterate (h : txr.Valid) (hpos : 0 < txr.txIDs.length) (k : ℕ) :
    (Iterator.next^[k] txr.iterator).After txr k := by
  induction k with
  | zero => exact h.after_iterator
  | succ k ih =>
    rw [Function.iterate_succ_apply']
    exact ih.next hpos

/-- **The ring is a queue.** No operation of a run panics, whatever the capacity is at first. The
ring holds what is in the queue, and an iterator gives it from the oldest ID on. -/
theorem run_refines (ops : List Op) :
    ∃ txr, ops.foldlM step (newTxRing capacity) = some txr ∧ txr.Valid ∧
      txr.contents = ops.foldl Op.onQueue [] ∧
      ∀ k < txr.txIDCount, (Iterator.next^[k] txr.iterator).atID = txr.contents[k]? := by
  obtain ⟨txr, hrun, hvalid, hcontents⟩ := (valid_newTxRing capacity).run ops
  refine ⟨txr, hrun, hvalid, hcontents, fun k hk => ?_⟩
  have hpos : 0 < txr.txIDs.length := Nat.zero_lt_of_lt (hk.trans_le hvalid.count_le)
  exact (hvalid.after_iterate hpos k).atID hvalid hk

end TxRing

end Prometheus.Tsdb
