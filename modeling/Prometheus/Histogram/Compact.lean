import Prometheus.Histogram.Gaps

/-!
# Compacting buckets

`compactBuckets` of `model/histogram/generic.go`, for counts and for deltas between them.

The slices are edited at a cursor. `Cursor` holds them as the code sees them: the spans and buckets
before the cursor, those from it on, and the position in the current span. An access beyond the end
of a slice has no result.

Offsets are `int32`s, and joining the gaps around what is cut out may exceed them. The passes that
join gaps take the way sums are formed as a parameter `w`: `int32` in the code, `id` for exact sums.
They never look at an offset they have computed, so that the code's spans are the exact ones with
every offset wrapped (`loop_wrap`). The invariant of the loop (`CompactInv`) is one of the exact
slices.

Without `maxEmptyBuckets` the exact result is canonical: no bucket is empty, and the spans are the
maximal runs of the indices left, which determines both (`Canonical.unique`). The code returns it
exactly if its offsets are `int32`s, that is if no gap between two populated buckets is too long
(`compactBuckets_canonical_iff`). Whatever the offsets, the result has a bucket for each place in
the spans (`compactBuckets_sized`).
-/

namespace Prometheus.Histogram

open List GoInt

variable {C : Type} [AddCommGroup C] {ss : List Span}

/-! ### The code -/

section Code

variable [DecidableEq C] (w : ℤ → ℤ)

/-- Merge spans with zero-offset to avoid special cases later. -/
def mergeZeroOffset : Span → List Span → List Span
  | cur, [] => [cur]
  | cur, s :: ss =>
    if s.offset = 0 then mergeZeroOffset { cur with length := cur.length + s.length } ss
    else cur :: mergeZeroOffset s ss

/-- Merge spans with zero-length to avoid special cases later. `k` is the offset of the ones just
passed. -/
def mergeZeroLength : ℤ → List Span → List Span
  | _, [] => []
  | k, s :: ss =>
    if s.length = 0 then mergeZeroLength (w (s.offset + k)) ss
    else { s with offset := w (s.offset + k) } :: mergeZeroLength 0 ss

/-- `emptyBucketsHere`, with `room` buckets left in the span from the current one on, which has the
count `abs` and is followed by `rest`. -/
def emptyBucketsHere : ℕ → C → List C → ℕ
  | 0, _, _ => 0
  | room + 1, abs, rest =>
    if abs = 0 then
      match rest with
      | [] => 1
      | b :: rest => emptyBucketsHere room b rest + 1
    else 0

/-- The slices at `iSpan`, `iBucket` and `posInSpan`. -/
structure Cursor (C : Type) where
  spansDone : List Span
  spans : List Span
  bucketsDone : List C
  buckets : List C
  posInSpan : ℕ
  currentBucketAbsolute : C

/-- `spans[iSpan].Offset += k`, if there is a span at `iSpan`. -/
def addOffset (k : ℤ) : List Span → List Span
  | [] => []
  | s :: ss => { s with offset := w (s.offset + k) } :: ss

/-- Cut out `nEmpty` buckets from the current span `s` on. -/
def Cursor.cutSpan (c : Cursor C) (s : Span) (ss : List Span) (nEmpty : ℕ) : Cursor C :=
  if c.posInSpan = 0 then
    -- Start of span.
    if nEmpty = s.length then
      -- The whole span is empty.
      { c with spans := addOffset w (s.offset + nEmpty) ss }
    else { c with spans := ⟨w (s.offset + nEmpty), s.length - nEmpty⟩ :: ss }
  else
    -- It's in the middle or in the end of the span. Split the current span.
    let newSpan : Span := ⟨w nEmpty, s.length - c.posInSpan - nEmpty⟩
    let c := { c with
      spansDone := c.spansDone ++ [{ s with length := c.posInSpan }]
      posInSpan := 0 }
    if newSpan.length = 0 then { c with spans := addOffset w nEmpty ss }
    else { c with spans := newSpan :: ss }

/-- A turn of the loop at the bucket `b`. -/
def Cursor.turn (maxEmptyBuckets : ℕ) (deltaBuckets : Bool) (c : Cursor C) (b : C) (bs : List C) :
    Option (Cursor C) :=
  match c.spans with
  | [] => none
  | s :: ss =>
    let abs := if deltaBuckets then c.currentBucketAbsolute + b else b
    let nEmpty := emptyBucketsHere (s.length - c.posInSpan) abs bs
    if nEmpty > 0 then
      if c.posInSpan > 0 ∧ nEmpty < s.length - c.posInSpan ∧ nEmpty ≤ maxEmptyBuckets then
        -- The empty buckets are in the middle of a span, and there are few enough to not bother.
        some { c with
          bucketsDone := c.bucketsDone ++ (b :: bs).take nEmpty
          buckets := (b :: bs).drop nEmpty
          posInSpan := c.posInSpan + nEmpty
          currentBucketAbsolute := if deltaBuckets then 0 else abs }
      else
        let rest := (b :: bs).drop nEmpty
        some (Cursor.cutSpan w { c with
          buckets := if deltaBuckets then rest.modifyHead (· + b) else rest
          currentBucketAbsolute := if deltaBuckets ∧ rest ≠ [] then -b else abs } s ss nEmpty)
    else
      let c := { c with
        bucketsDone := c.bucketsDone ++ [b], buckets := bs, currentBucketAbsolute := abs }
      if c.posInSpan + 1 ≥ s.length then
        some { c with spansDone := c.spansDone ++ [s], spans := ss, posInSpan := 0 }
      else some { c with posInSpan := c.posInSpan + 1 }

/-- The loop; every turn takes a bucket from those ahead. -/
def Cursor.loop (maxEmptyBuckets : ℕ) (deltaBuckets : Bool) : ℕ → Cursor C → Option (Cursor C)
  | 0, c => some c
  | fuel + 1, c =>
    match c.buckets with
    | [] => some c
    | b :: bs =>
      (c.turn w maxEmptyBuckets deltaBuckets b bs).bind (loop maxEmptyBuckets deltaBuckets fuel)

/-- `newBuckets` of the last loop: `offset` empty buckets before the one at `iBucket`, after the
count `abs`. An offset below 0, which a sum that wraps around can be, takes buckets away, or has no
result if there are none to take. -/
def insertEmpty (deltaBuckets : Bool) (offset : ℤ) (iBucket : ℕ) (abs : C) (buckets : List C) :
    Option (List C) :=
  let front := buckets.take (iBucket - (-offset).toNat)
  let rest := List.replicate offset.toNat 0 ++ buckets.drop iBucket
  if iBucket + offset < 0 then none
  else if deltaBuckets then
    -- `newBuckets[iBucket] = -abs`, and then `newBuckets[iBucket+offset] += abs`.
    if (-offset).toNat < rest.length then
      some (front ++ (rest.set (-offset).toNat (-abs)).modify offset.toNat (· + abs))
    else none
  else some (front ++ rest)

/-- The last loop merges spans with small offsets between them. `done` are the spans before
`iSpan - 1`, which is `cur`. -/
def mergeSmallOffsets (maxEmptyBuckets : ℕ) (deltaBuckets : Bool) :
    List Span → Span → List Span → ℕ → C → List C → Option (List C × List Span)
  | done, cur, [], _, _, buckets => some (buckets, done ++ [cur])
  | done, cur, s :: ss, iBucket, abs, buckets =>
    if s.offset > maxEmptyBuckets then
      let abs := if deltaBuckets then abs + ((buckets.drop iBucket).take s.length).sum else abs
      mergeSmallOffsets maxEmptyBuckets deltaBuckets (done ++ [cur]) s ss (iBucket + s.length) abs
        buckets
    else do
      -- Merge span with previous one and insert empty buckets.
      let cur := { cur with length := uint32 (cur.length + (s.offset + s.length)) }
      let newBuckets ← insertEmpty deltaBuckets s.offset iBucket abs buckets
      let iBucket := (iBucket + s.offset).toNat
      let abs ← newBuckets[iBucket]?
      mergeSmallOffsets maxEmptyBuckets deltaBuckets done cur ss iBucket abs newBuckets

/-- If there are no empty buckets and no offset in any span is `<= maxEmptyBuckets` and no span has
length 0, there is nothing to do. -/
def nothingToDo (buckets : List C) (spans : List Span) (maxEmptyBuckets : ℕ) (deltaBuckets : Bool) :
    Bool :=
  let counts := if deltaBuckets then (buckets.scanl (· + ·) 0).tail else buckets
  counts.all (· ≠ 0) && spans.all fun s => ¬(s.offset ≤ maxEmptyBuckets ∨ s.length = 0)

/-- The spans after both merges. -/
def mergeSpans : List Span → List Span
  | [] => []
  | s :: ss => mergeZeroLength w 0 (mergeZeroOffset s ss)

/-- `compactBuckets`. Without a result, it panics. -/
def compactBuckets (buckets : List C) (spans : List Span) (maxEmptyBuckets : ℕ)
    (deltaBuckets : Bool) : Option (List C × List Span) :=
  if nothingToDo buckets spans maxEmptyBuckets deltaBuckets then some (buckets, spans)
  else
    (Cursor.loop int32 maxEmptyBuckets deltaBuckets buckets.length
      ⟨[], mergeSpans int32 spans, [], buckets, 0, 0⟩).bind fun c =>
      let buckets := c.bucketsDone ++ c.buckets
      let spans := c.spansDone ++ c.spans
      if maxEmptyBuckets = 0 ∨ buckets = [] then some (buckets, spans)
      else
        match spans with
        | [] => none
        | s :: ss =>
          let abs := if deltaBuckets then (buckets.take s.length).sum else 0
          mergeSmallOffsets maxEmptyBuckets deltaBuckets [] s ss s.length abs buckets

end Code

/-! ### Sums that wrap around -/

/-- The spans with their offsets as `int32`s. -/
def wrapOffsets (spans : List Span) : List Span :=
  spans.map fun s => { s with offset := int32 s.offset }

/-- The cursor with the offsets of all spans as `int32`s. -/
def Cursor.wrap (c : Cursor C) : Cursor C :=
  { c with spansDone := wrapOffsets c.spansDone, spans := wrapOffsets c.spans }

@[simp] lemma wrapOffsets_nil : wrapOffsets [] = [] := rfl

@[simp] lemma wrapOffsets_cons (s : Span) (ss : List Span) :
    wrapOffsets (s :: ss) = ⟨int32 s.offset, s.length⟩ :: wrapOffsets ss := rfl

@[simp] lemma wrapOffsets_append (as bs : List Span) :
    wrapOffsets (as ++ bs) = wrapOffsets as ++ wrapOffsets bs :=
  map_append

@[simp] lemma countSpans_wrapOffsets (spans : List Span) :
    countSpans (wrapOffsets spans) = countSpans spans := by
  simp [countSpans, wrapOffsets, Function.comp_def]

lemma wrapOffsets_eq_self {spans : List Span} :
    wrapOffsets spans = spans ↔ ∀ s ∈ spans, IsInt32 s.offset := by
  induction spans with
  | nil => simp
  | cons s ss ih =>
    rw [wrapOffsets_cons, cons.injEq, ih, forall_mem_cons, ← int32_eq_self]
    simp [Span.ext_iff]

lemma addOffset_wrap {k k' : ℤ} (hk : int32 k' = int32 k) (ss : List Span) :
    addOffset int32 k' (wrapOffsets ss) = wrapOffsets (addOffset id k ss) := by
  cases ss with
  | nil => rfl
  | cons s ss =>
    simp only [addOffset, wrapOffsets_cons, int32_int32_add, id]
    rw [← int32_add_int32, hk, int32_add_int32]

/-- The sum that is carried along is only asked for as an `int32`. -/
lemma mergeZeroLength_wrap {k k' : ℤ} (hk : int32 k' = int32 k) (ss : List Span) :
    mergeZeroLength int32 k' ss = wrapOffsets (mergeZeroLength id k ss) := by
  induction ss generalizing k k' with
  | nil => rfl
  | cons s ss ih =>
    have hsum : int32 (s.offset + k') = int32 (s.offset + k) := by
      rw [← int32_add_int32, hk, int32_add_int32]
    simp only [mergeZeroLength]
    split_ifs
    · exact ih (by rw [hsum, int32_eq_self.2 (isInt32_int32 _)]; rfl)
    · rw [hsum, ih rfl, wrapOffsets_cons]
      rfl

lemma mergeSpans_wrap (spans : List Span) :
    mergeSpans int32 spans = wrapOffsets (mergeSpans id spans) := by
  cases spans with
  | nil => rfl
  | cons s ss => exact mergeZeroLength_wrap rfl _

omit [AddCommGroup C] in
lemma cutSpan_wrap (c : Cursor C) (s : Span) (ss : List Span) (n : ℕ) :
    c.wrap.cutSpan int32 ⟨int32 s.offset, s.length⟩ (wrapOffsets ss) n =
      (c.cutSpan id s ss n).wrap := by
  have hsum : int32 (int32 s.offset + n) = int32 (s.offset + n) := int32_int32_add _ _
  simp only [Cursor.cutSpan, Cursor.wrap, hsum, addOffset_wrap hsum, addOffset_wrap rfl, id]
  split_ifs <;> simp

section Wrap

variable [DecidableEq C] {m : ℕ} {d : Bool}

lemma turn_wrap (c : Cursor C) (b : C) (bs : List C) :
    c.wrap.turn int32 m d b bs = (c.turn id m d b bs).map Cursor.wrap := by
  cases hspans : c.spans with
  | nil => simp [Cursor.turn, Cursor.wrap, hspans]
  | cons s ss =>
    have hwrap : c.wrap.spans = ⟨int32 s.offset, s.length⟩ :: wrapOffsets ss := by
      simp [Cursor.wrap, hspans]
    have hcut := fun (bs' : List C) (abs : C) n =>
      cutSpan_wrap { c with buckets := bs', currentBucketAbsolute := abs } s ss n
    simp only [Cursor.turn, hspans, hwrap]
    simp only [Cursor.wrap, hspans, wrapOffsets_cons] at hcut ⊢
    split_ifs <;> simp [hcut, Cursor.wrap]

/-- **Wrapping at every sum** is wrapping the offsets at the end. -/
lemma loop_wrap (c : Cursor C) (fuel : ℕ) :
    c.wrap.loop int32 m d fuel = (c.loop id m d fuel).map Cursor.wrap := by
  induction fuel generalizing c with
  | zero => rfl
  | succ fuel ih =>
    cases hb : c.buckets with
    | nil => simp [Cursor.loop, Cursor.wrap, hb]
    | cons b bs =>
      have hwrap : c.wrap.buckets = b :: bs := hb
      simp only [Cursor.loop, hb, hwrap, turn_wrap]
      cases c.turn id m d b bs with
      | none => rfl
      | some c' => exact ih c'

end Wrap

/-! ### Merging spans -/

attribute [local simp] absolute mergeZeroLength NonnegOffsets emptyBucketsHere indices

lemma indices_mergeZeroOffset (idx : ℤ) (s : Span) (ss : List Span) :
    indices idx (mergeZeroOffset s ss) = indices idx (s :: ss) := by
  induction ss generalizing idx s with
  | nil => rfl
  | cons t ts ih =>
    rw [mergeZeroOffset]
    split_ifs with h
    · rw [ih]
      simp [h, indexRange_add, add_assoc]
    · simp [ih]

/-- After the first merge there is a gap before every span but the first, which stays where it is.
-/
lemma mergeZeroOffset_gap (s : Span) (h : ∀ t ∈ ss, 0 ≤ t.offset) :
    ∃ n ts, mergeZeroOffset s ss = ⟨s.offset, n⟩ :: ts ∧ ∀ t ∈ ts, 0 < t.offset := by
  induction ss generalizing s with
  | nil => exact ⟨s.length, [], rfl, by simp⟩
  | cons t ts ih =>
    rw [forall_mem_cons] at h
    rw [mergeZeroOffset]
    split_ifs with hzero
    · exact ih _ h.2
    obtain ⟨n, us, heq, hus⟩ := ih t h.2
    refine ⟨s.length, _, rfl, ?_⟩
    rw [heq]
    exact forall_mem_cons.2 ⟨by simp only; omega, hus⟩

lemma indices_mergeZeroLength (idx k : ℤ) (ss : List Span) :
    indices idx (mergeZeroLength id k ss) = indices (idx + k) ss := by
  induction ss generalizing idx k with
  | nil => rfl
  | cons s ss ih =>
    have hoff : idx + (s.offset + k) = idx + k + s.offset := by ring
    rw [mergeZeroLength, id]
    split_ifs with h
    · rw [ih, indices_zero_length _ h, hoff]
    · simp [ih, hoff]

lemma mergeZeroLength_pos (k : ℤ) (ss : List Span) :
    ∀ t ∈ mergeZeroLength id k ss, 0 < t.length := by
  induction ss generalizing k with
  | nil => simp
  | cons s ss ih =>
    rw [mergeZeroLength]
    split_ifs with hs
    · exact ih _
    · exact forall_mem_cons.2 ⟨Nat.pos_of_ne_zero hs, ih 0⟩

lemma mergeZeroLength_gap {k : ℤ} (hk : 0 ≤ k) (h : ∀ t ∈ ss, 0 < t.offset) :
    ∀ t ∈ mergeZeroLength id k ss, 0 < t.offset := by
  induction ss generalizing k with
  | nil => simp
  | cons s ss ih =>
    rw [forall_mem_cons] at h
    rw [mergeZeroLength, id]
    split_ifs
    · exact ih (by omega) h.2
    · exact forall_mem_cons.2 ⟨by simp only; omega, ih (le_refl 0) h.2⟩

/-- The first span may be anywhere: what is left has gaps behind its first span. -/
lemma mergeZeroLength_gap_tail (k : ℤ) (h : ∀ t ∈ ss.tail, 0 < t.offset) :
    ∀ t ∈ (mergeZeroLength id k ss).tail, 0 < t.offset := by
  induction ss generalizing k with
  | nil => simp
  | cons s ss ih =>
    rw [mergeZeroLength]
    split_ifs
    · exact ih _ fun t ht => h t (mem_of_mem_tail ht)
    · exact mergeZeroLength_gap (le_refl 0) h

@[simp] lemma addOffset_zero (spans : List Span) : addOffset id 0 spans = spans := by
  cases spans <;> simp [addOffset]

/-- Spans with buckets are left as they are. -/
lemma mergeZeroLength_append {as : List Span} (h : ∀ t ∈ as, 0 < t.length) (bs : List Span) :
    mergeZeroLength id 0 (as ++ bs) = as ++ mergeZeroLength id 0 bs := by
  induction as with
  | nil => rfl
  | cons s ss ih =>
    rw [forall_mem_cons] at h
    simp [h.1.ne', ih h.2]

lemma mergeZeroLength_eq_addOffset (k : ℤ) (h : ∀ t ∈ ss, 0 < t.length) :
    mergeZeroLength id k ss = addOffset id k ss := by
  cases ss with
  | nil => rfl
  | cons s ss =>
    rw [forall_mem_cons] at h
    have hss : mergeZeroLength id 0 ss = ss := by simpa using mergeZeroLength_append h.2 []
    simp [addOffset, h.1.ne', hss]

lemma indices_mergeSpans (spans : List Span) :
    indices 0 (mergeSpans id spans) = indices 0 spans := by
  cases spans with
  | nil => rfl
  | cons s ss => rw [mergeSpans, indices_mergeZeroLength, add_zero, indices_mergeZeroOffset]

lemma mergeSpans_pos (spans : List Span) : ∀ s ∈ mergeSpans id spans, 0 < s.length := by
  cases spans with
  | nil => simp [mergeSpans]
  | cons s ss => exact mergeZeroLength_pos 0 _

lemma mergeSpans_gap (h : NonnegOffsets ss) : ∀ s ∈ (mergeSpans id ss).tail, 0 < s.offset := by
  cases ss with
  | nil => simp [mergeSpans]
  | cons s ss =>
    obtain ⟨n, ts, heq, hts⟩ := mergeZeroOffset_gap s h
    rw [mergeSpans, heq]
    exact mergeZeroLength_gap_tail 0 hts

/-! ### Counts -/

variable {d : Bool} {p : C} {as : List C}

@[simp] lemma absolute_false (p : C) (as : List C) : absolute false p as = as := by
  induction as generalizing p with
  | nil => rfl
  | cons a as ih => simp [ih]

@[simp] lemma length_absolute (d : Bool) (p : C) (as : List C) :
    (absolute d p as).length = as.length := by
  induction as generalizing p with
  | nil => rfl
  | cons a as ih => simp [ih]

lemma absolute_true (p : C) (as : List C) : absolute true p as = (as.scanl (· + ·) p).tail := by
  induction as generalizing p with
  | nil => rfl
  | cons a as ih => cases as <;> simp_all [absolute]

lemma absolute_take (d : Bool) (p : C) (n : ℕ) (as : List C) :
    absolute d p (as.take n) = (absolute d p as).take n := by
  induction n generalizing p as with
  | zero => simp
  | succ n ih => cases as <;> simp [ih]

/-- The count after empty buckets is a count after 0. -/
lemma absolute_append_of_zero (hne : as ≠ []) (h : ∀ x ∈ absolute d p as, x = 0) (bs : List C) :
    absolute d p (as ++ bs) = absolute d p as ++ absolute d 0 bs := by
  induction as generalizing p with
  | nil => exact absurd rfl hne
  | cons a as ih =>
    obtain ⟨ha, has⟩ := forall_mem_cons.1 h
    simp only [absolute, cons_append, ha] at has ⊢
    cases as with
    | nil => rfl
    | cons a' as => rw [ih (by simp) has]

lemma absolute_injective (d : Bool) (p : C) : Function.Injective (absolute d p) := by
  intro as bs h
  induction as generalizing p bs with
  | nil => cases bs <;> simp_all [absolute]
  | cons a as ih =>
    cases bs with
    | nil => simp at h
    | cons b bs =>
      obtain ⟨hab, h⟩ := cons.inj h
      obtain rfl : a = b := by cases d <;> simpa using hab
      rw [ih _ h]

lemma absolute_append_true (p : C) (as bs : List C) :
    absolute true p (as ++ bs) = absolute true p as ++ absolute true (p + as.sum) bs := by
  induction as generalizing p with
  | nil => simp
  | cons a as ih => simp [ih, add_assoc]

variable {abs : C} {buckets : List C} {m : ℕ} {done : List Span}

/-! ### Cutting out empty buckets -/

section Cut

variable {s : Span} {n : ℕ}

/-- A gap of `n` indices in a span, from `m` on. -/
lemma indices_gap (done ss : List Span) (hn : m + n ≤ s.length) :
    ∃ ps qs, indices 0 (done ++ s :: ss) =
        ps ++ (indexRange (endIdx 0 done + s.offset + m) n ++ qs) ∧
      indices 0 (done ++ ⟨s.offset, m⟩ :: ⟨n, s.length - m - n⟩ :: ss) = ps ++ qs ∧
      ps.length = countSpans done + m := by
  set j := endIdx 0 done + s.offset
  have hsplit : s.length = m + (n + (s.length - m - n)) := by omega
  have hend : j + m + n + ((s.length - m - n : ℕ) : ℤ) = j + s.length := by omega
  refine ⟨indices 0 done ++ indexRange j m,
    indexRange (j + m + n) (s.length - m - n) ++ indices (j + s.length) ss, ?_, ?_, by simp⟩
  · rw [indices_append, indices, hsplit, indexRange_add, indexRange_add]
    simp [j]
  · simp [indices_append, hend, j]

omit [AddCommGroup C] in
/-- The spans after the cut: those with a gap, less the ones that have no buckets left. -/
lemma cutSpan_spans (c : Cursor C) (hlength : ∀ t ∈ c.spansDone ++ s :: ss, 0 < t.length)
    (hn : c.posInSpan + n ≤ s.length) :
    (c.cutSpan id s ss n).spansDone ++ (c.cutSpan id s ss n).spans = mergeZeroLength id 0
      (c.spansDone ++ ⟨s.offset, c.posInSpan⟩ :: ⟨n, s.length - c.posInSpan - n⟩ :: ss) := by
  obtain ⟨hdone, -, hss⟩ := (forall_mem_append.trans (and_congr_right' forall_mem_cons)).1 hlength
  rw [mergeZeroLength_append hdone]
  simp only [Cursor.cutSpan, mergeZeroLength, mergeZeroLength_eq_addOffset _ hss, id]
  split_ifs with hpos hwhole hend <;> simp_all [add_comm]
  all_goals omega

omit [AddCommGroup C] in
lemma cutSpan_rest (w : ℤ → ℤ) (c : Cursor C) (s : Span) (ss : List Span) (n : ℕ) :
    (c.cutSpan w s ss n).bucketsDone = c.bucketsDone ∧ (c.cutSpan w s ss n).buckets = c.buckets ∧
      (c.cutSpan w s ss n).currentBucketAbsolute = c.currentBucketAbsolute ∧
      (c.cutSpan w s ss n).posInSpan = 0 ∧
      countSpans (c.cutSpan w s ss n).spansDone = countSpans c.spansDone + c.posInSpan := by
  simp only [Cursor.cutSpan]
  split_ifs with hpos <;> simp [hpos]

end Cut

variable [DecidableEq C]

/-- The run of empty buckets that is found: it fits the span, its counts are 0, and what follows it
in the span is not empty. -/
lemma emptyBucketsHere_spec (d : Bool) (room : ℕ) (abs : C) (bs : List C) :
    emptyBucketsHere room abs bs ≤ room ∧ emptyBucketsHere room abs bs ≤ bs.length + 1 ∧
      (∀ x ∈ (abs :: absolute d abs bs).take (emptyBucketsHere room abs bs), x = 0) ∧
      (emptyBucketsHere room abs bs < room →
        ∀ x ∈ (abs :: absolute d abs bs)[emptyBucketsHere room abs bs]?, x ≠ 0) := by
  induction room generalizing abs bs with
  | zero => simp
  | succ room ih =>
    by_cases h : abs = 0
    · cases bs with
      | nil => simp [h]
      | cons b bs =>
        obtain ⟨hroom, hlen, hzero, hnext⟩ := ih b bs
        have habs : absolute d abs (b :: bs) = b :: absolute d b bs := by simp [h]
        simp only [emptyBucketsHere, if_pos h, habs]
        refine ⟨by omega, by simpa using hlen, ?_, fun hlt => ?_⟩
        · simpa [h] using hzero
        · simpa using hnext (by omega)
    · simp [h]

lemma populated_append (as bs : List (ℤ × C)) :
    populated (as ++ bs) = populated as ++ populated bs := by
  simp [populated]

lemma populated_zip_zeros {is : List ℤ} {zs : List C} (h : ∀ z ∈ zs, z = 0) :
    populated (is.zip zs) = [] := by
  refine filter_eq_nil_iff.2 fun e he => ?_
  simpa using h e.2 (of_mem_zip he).2

/-- Taking out empty buckets and their indices. -/
lemma populated_zip_cut {ps zs qs : List ℤ} {bs es cs : List C} (hp : ps.length = bs.length)
    (hz : zs.length = es.length) (hempty : ∀ z ∈ es, z = 0) :
    populated ((ps ++ (zs ++ qs)).zip (bs ++ (es ++ cs))) =
      populated ((ps ++ qs).zip (bs ++ cs)) := by
  rw [zip_append hp, zip_append hz, zip_append hp, populated_append,
    populated_append, populated_append, populated_zip_zeros hempty, nil_append]

/-! ### What a turn does -/

/-- The cursor goes on by `as`: a bucket that is not empty, or a few empty ones before such a bucket
in the middle of a span. -/
structure Cursor.Keeps (m : ℕ) (d : Bool) (c c' : Cursor C) (as : List C) : Prop where
  buckets : c.buckets = as ++ c'.buckets
  ne_nil : as ≠ []
  spans : c'.spansDone ++ c'.spans = c.spansDone ++ c.spans
  bucketsDone : c'.bucketsDone = c.bucketsDone ++ as
  length : countSpans c'.spansDone + c'.posInSpan = countSpans c.spansDone + c.posInSpan + as.length
  in_span : c'.posInSpan = 0 ∨ ∃ s ss, c'.spans = s :: ss ∧ c'.posInSpan < s.length
  counts : ∀ bs, absolute d c.currentBucketAbsolute (as ++ bs) =
    absolute d c.currentBucketAbsolute as ++ absolute d c'.currentBucketAbsolute bs
  why : (∃ x ≠ 0, absolute d c.currentBucketAbsolute as = [x]) ∨
    (∀ x ∈ absolute d c.currentBucketAbsolute as, x = 0) ∧ as.length ≤ m ∧ 0 < c.posInSpan ∧
      c'.posInSpan = c.posInSpan + as.length ∧ c'.spansDone = c.spansDone ∧
      ∀ x ∈ (absolute d c'.currentBucketAbsolute c'.buckets).head?, x ≠ 0

/-- The empty buckets `as` are cut out: at the start or the end of a span, or many of them. -/
structure Cursor.Cuts (m : ℕ) (d : Bool) (c c' : Cursor C) (s : Span) (ss : List Span)
    (as bs : List C) : Prop where
  spans : c.spans = s :: ss
  buckets : c.buckets = as ++ bs
  ne_nil : as ≠ []
  room : c.posInSpan + as.length ≤ s.length
  empty : ∀ x ∈ absolute d c.currentBucketAbsolute as, x = 0
  eq : ∃ bs' abs, c' =
    Cursor.cutSpan id { c with buckets := bs', currentBucketAbsolute := abs } s ss as.length ∧
      absolute d abs bs' = absolute d 0 bs ∧
      (bs' ≠ [] → d = false ∨ abs = c.currentBucketAbsolute)
  why : c.posInSpan = 0 ∨ c.posInSpan + as.length = s.length ∨ m < as.length

/-- **A turn** either keeps buckets or cuts them out. -/
lemma turn_cases {c : Cursor C} {s : Span} {ss : List Span} {b : C} {bs : List C}
    (hspans : c.spans = s :: ss) (hlt : c.posInSpan < s.length) (hb : c.buckets = b :: bs) :
    ∃ c', c.turn id m d b bs = some c' ∧ c'.buckets.length < c.buckets.length ∧
      ((∃ as, c.Keeps m d c' as) ∨ ∃ as bs, c.Cuts m d c' s ss as bs) := by
  set abs := if d then c.currentBucketAbsolute + b else b with habs
  have hall : absolute d c.currentBucketAbsolute (b :: bs) = abs :: absolute d abs bs := rfl
  obtain ⟨hroom, hlen, hempty, hnext⟩ := emptyBucketsHere_spec d (s.length - c.posInSpan) abs bs
  set n := emptyBucketsHere (s.length - c.posInSpan) abs bs with hn
  simp only [Cursor.turn, hspans, ← habs, ← hn]
  by_cases hpos : n > 0
  · have hsplit : c.buckets = (b :: bs).take n ++ (b :: bs).drop n := by simp [hb]
    have hlen' : ((b :: bs).take n).length = n := by simpa using hlen
    have hne : (b :: bs).take n ≠ [] := length_pos_iff.1 (by omega)
    have hzero : ∀ x ∈ absolute d c.currentBucketAbsolute ((b :: bs).take n), x = 0 := by
      rw [absolute_take]
      exact hempty
    have habs0 : abs = 0 := by
      obtain ⟨k, hk⟩ := Nat.exists_eq_succ_of_ne_zero hpos.ne'
      exact hempty abs (by simp [hk])
    have hcounts := absolute_append_of_zero hne hzero
    rw [if_pos hpos]
    by_cases hfew : c.posInSpan > 0 ∧ n < s.length - c.posInSpan ∧ n ≤ m
    · rw [if_pos hfew]
      refine ⟨_, rfl, by simp [hb]; omega, .inl ⟨(b :: bs).take n, hsplit,
        hne, by simp [hspans], rfl,
        by simp only [hlen']; omega, .inr ⟨s, ss, rfl, by simp only; omega⟩, fun B => ?_,
        .inr ⟨hzero, by omega, hfew.1, by rw [hlen'], rfl, ?_⟩⟩⟩
      · simp [hcounts, habs0]
      · have hdrop : absolute d 0 ((b :: bs).drop n) = (abs :: absolute d abs bs).drop n := by
          have := hcounts ((b :: bs).drop n)
          rw [take_append_drop, hall] at this
          rw [this, drop_left' (by rw [length_absolute, hlen'])]
        simp only [habs0, ite_self] at hdrop ⊢
        rw [hdrop, head?_drop]
        simpa only [habs0] using hnext (by omega)
    rw [if_neg hfew]
    refine ⟨_, rfl, ?_, .inr ⟨(b :: bs).take n, (b :: bs).drop n, hspans, hsplit,
      hne, by omega, hzero,
      ⟨_, _, by rw [hlen', ← hspans], ?_, fun _ => ?_⟩, by rw [hlen']; omega⟩⟩
    · rw [(cutSpan_rest _ _ _ _ _).2.1, hb]
      split_ifs <;> simp only [length_modifyHead, length_drop, length_cons] <;> omega
    · generalize (b :: bs).drop n = rest
      cases d <;> cases rest <;> simp
    · cases d with
      | false => exact .inl rfl
      | true =>
        have hcur : c.currentBucketAbsolute + b = 0 := habs0
        simp_all [eq_neg_of_add_eq_zero_left hcur]
  · rw [if_neg hpos]
    have habs0 : abs ≠ 0 := by
      have := hnext (by omega) abs
      simpa [show n = 0 by omega] using this
    have hwhy : ∃ x ≠ 0, absolute d c.currentBucketAbsolute [b] = [x] := ⟨abs, habs0, rfl⟩
    split_ifs with hfull
    · refine ⟨_, rfl, by simp [hb], .inl ⟨[b], hb, by simp, by simp [hspans], rfl, ?_, .inl rfl,
        fun B => rfl, .inl hwhy⟩⟩
      simp only [countSpans_append, countSpans_cons, countSpans_nil, length_singleton]
      omega
    · exact ⟨_, rfl, by simp [hb], .inl ⟨[b], hb, by simp, by simp [hspans], rfl, rfl,
        .inr ⟨s, ss, rfl, by simp only; omega⟩, fun B => rfl, .inl hwhy⟩⟩

/-! ### The loop -/

/-- The cursor is at a place in slices of the same number of buckets, that hold the buckets `es` and
otherwise empty ones. There are gaps between the spans if the offsets `spans₀` had at first were not
negative. -/
structure CompactInv (m : ℕ) (d : Bool) (spans₀ : List Span) (es : List (ℤ × C)) (c : Cursor C) :
    Prop where
  length_done : countSpans c.spansDone + c.posInSpan = c.bucketsDone.length
  length_eq : countSpans (c.spansDone ++ c.spans) = (c.bucketsDone ++ c.buckets).length
  in_span : c.posInSpan = 0 ∨ ∃ s ss, c.spans = s :: ss ∧ c.posInSpan < s.length
  pos : ∀ s ∈ c.spansDone ++ c.spans, 0 < s.length
  gap : NonnegOffsets spans₀ → ∀ s ∈ (c.spansDone ++ c.spans).tail, 0 < s.offset
  counts : c.buckets ≠ [] → ∀ bs, absolute d 0 (c.bucketsDone ++ bs) =
    absolute d 0 c.bucketsDone ++ absolute d c.currentBucketAbsolute bs
  populated : populated (entries (c.spansDone ++ c.spans) (absolute d 0 c.bucketsDone ++
    absolute d c.currentBucketAbsolute c.buckets)) = es
  nonzero : m = 0 → ∀ x ∈ absolute d 0 c.bucketsDone, x ≠ 0

section Invariant

variable {spans₀ : List Span} {es : List (ℤ × C)} {c c' : Cursor C} {s : Span} {ss : List Span}
  {as bs : List C} (h : CompactInv m d spans₀ es c)

include h

lemma CompactInv.clean (h₀ : NonnegOffsets spans₀) : Clean (c.spansDone ++ c.spans) :=
  ⟨h.pos, h.gap h₀⟩

/-- There is a span for the bucket at the cursor, and it is not full. -/
lemma CompactInv.span (hb : c.buckets ≠ []) :
    ∃ s ss, c.spans = s :: ss ∧ c.posInSpan < s.length := by
  rcases h.in_span with hzero | hin
  · cases hspans : c.spans with
    | nil =>
      have hlen := h.length_eq
      have hdone := h.length_done
      have := length_pos_iff.2 hb
      simp only [hspans, append_nil, length_append] at hlen
      omega
    | cons s ss => exact ⟨s, ss, rfl, by rw [hzero]; exact h.pos s (by simp [hspans])⟩
  · exact hin

lemma CompactInv.keep (hk : c.Keeps m d c' as) : CompactInv m d spans₀ es c' := by
  have hcur := h.counts (by simp [hk.buckets, hk.ne_nil])
  refine ⟨?_, ?_, hk.in_span, hk.spans ▸ h.pos, fun h₀ => hk.spans ▸ h.gap h₀, fun _ bs => ?_, ?_,
    fun hm => ?_⟩
  · rw [hk.length, hk.bucketsDone, h.length_done, length_append]
  · rw [hk.spans, h.length_eq, hk.bucketsDone, hk.buckets, append_assoc]
  · rw [hk.bucketsDone, append_assoc, hcur, hk.counts, hcur, append_assoc]
  · rw [hk.spans, hk.bucketsDone, hcur, append_assoc, ← hk.counts, ← hk.buckets, h.populated]
  · rw [hk.bucketsDone, hcur, forall_mem_append]
    refine ⟨h.nonzero hm, ?_⟩
    rcases hk.why with ⟨x, hx, heq⟩ | ⟨-, hle, -⟩
    · simpa [heq] using hx
    · have := length_pos_iff.2 hk.ne_nil
      omega

/-- The indices before and after the cut. -/
lemma CompactInv.cut_indices (hc : c.Cuts m d c' s ss as bs) :
    ∃ ps qs, indices 0 (c.spansDone ++ c.spans) =
        ps ++ (indexRange (endIdx 0 c.spansDone + s.offset + c.posInSpan) as.length ++ qs) ∧
      indices 0 (c'.spansDone ++ c'.spans) = ps ++ qs ∧ ps.length = c.bucketsDone.length := by
  obtain ⟨bs', abs, rfl, -⟩ := hc.eq
  obtain ⟨ps, qs, hold, hnew, hps⟩ := indices_gap c.spansDone ss hc.room
  have hpos := h.pos
  rw [hc.spans] at hpos
  refine ⟨ps, qs, hc.spans ▸ hold, ?_, hps.trans h.length_done⟩
  rw [cutSpan_spans { c with buckets := bs', currentBucketAbsolute := abs } hpos hc.room,
    indices_mergeZeroLength]
  exact hnew

lemma CompactInv.cut (hc : c.Cuts m d c' s ss as bs) : CompactInv m d spans₀ es c' := by
  obtain ⟨ps, qs, hold, hnew, hps⟩ := h.cut_indices hc
  obtain ⟨bs', abs, rfl, hbs, hcounts⟩ := hc.eq
  have hlen := h.length_eq
  have hlen' : bs'.length = bs.length := by simpa using congrArg length hbs
  have hpos := h.pos
  have hgap := h.gap
  have hpop := h.populated
  rw [hc.spans] at hpos hgap
  set c' : Cursor C := { c with buckets := bs', currentBucketAbsolute := abs }
  obtain ⟨hbd, hbuckets, habs, hzero, hdone⟩ := cutSpan_rest id c' s ss as.length
  have hspans' := cutSpan_spans c' hpos hc.room
  refine ⟨?_, ?_, .inl hzero, ?_, fun h₀ => ?_, fun hne B => ?_, ?_, ?_⟩
  · rw [hdone, hzero, hbd]
    exact h.length_done
  · rw [← length_indices 0, hold] at hlen
    rw [← length_indices 0, hnew, hbd, hbuckets]
    simp only [length_append, hc.buckets, length_indexRange] at hlen ⊢
    simp only [c']
    omega
  · rw [hspans']
    exact mergeZeroLength_pos 0 _
  · rw [hspans']
    refine mergeZeroLength_gap_tail 0 ?_
    have hgap := hgap h₀
    have hpos := length_pos_iff.2 hc.ne_nil
    cases hd : c'.spansDone <;> simp_all [c', or_imp]
  · rw [hbd, habs]
    rw [hbuckets] at hne
    rcases hcounts hne with rfl | heq
    · simp
    · simpa [c', heq] using h.counts (by simp [hc.buckets, hc.ne_nil]) B
  · rw [← hpop, entries, entries, hnew, hold, hbd, hbuckets, habs, hc.buckets,
      absolute_append_of_zero hc.ne_nil hc.empty, ← hbs]
    refine (populated_zip_cut ?_ ?_ hc.empty).symm
    · rw [hps, length_absolute]
    · rw [length_indexRange, length_absolute]
  · rw [hbd]
    exact h.nonzero

omit h

/-- **The run**: what the turns keep holds when no bucket is left ahead. -/
lemma CompactInv.loop {P : Cursor C → Prop}
    (hkeep : ∀ c c' as, CompactInv m d spans₀ es c → P c → c.Keeps m d c' as → P c')
    (hcut : ∀ c c' s ss as bs, CompactInv m d spans₀ es c → P c → c.Cuts m d c' s ss as bs → P c')
    {fuel : ℕ} (h : CompactInv m d spans₀ es c) (hP : P c) (hfuel : c.buckets.length ≤ fuel) :
    ∃ c', c.loop id m d fuel = some c' ∧ CompactInv m d spans₀ es c' ∧ P c' ∧ c'.buckets = [] := by
  induction fuel generalizing c with
  | zero => exact ⟨c, rfl, h, hP, length_eq_zero_iff.1 (Nat.le_zero.1 hfuel)⟩
  | succ fuel ih =>
    cases hb : c.buckets with
    | nil => exact ⟨c, by simp [Cursor.loop, hb], h, hP, hb⟩
    | cons b bs =>
      obtain ⟨s, ss, hspans, hlt⟩ := h.span (by simp [hb])
      obtain ⟨c', hturn, hless, hcases⟩ := turn_cases (m := m) (d := d) hspans hlt hb
      have h' : CompactInv m d spans₀ es c' ∧ P c' := by
        rcases hcases with ⟨as, hk⟩ | ⟨as, bs, hc⟩
        · exact ⟨h.keep hk, hkeep c c' as h hP hk⟩
        · exact ⟨h.cut hc, hcut c c' s ss as bs h hP hc⟩
      obtain ⟨c'', hloop, hinv⟩ := ih h'.1 h'.2 (by omega)
      exact ⟨c'', by simp [Cursor.loop, hb, hturn, hloop], hinv⟩

end Invariant

section Cut

variable {spans : List Span}

/-- **The slices after the first four passes**, with the property `P` that the turns keep. The
offsets are wrapped. -/
lemma cut_spec {P : Cursor C → Prop} (h : countSpans spans = buckets.length)
    (hkeep : ∀ c c' as, CompactInv m d spans (populated (entries spans (absolute d 0 buckets))) c →
      P c → c.Keeps m d c' as → P c')
    (hcut : ∀ c c' s ss as bs,
      CompactInv m d spans (populated (entries spans (absolute d 0 buckets))) c →
      P c → c.Cuts m d c' s ss as bs → P c')
    (hP : P ⟨[], mergeSpans id spans, [], buckets, 0, 0⟩) :
    ∃ c, Cursor.loop int32 m d buckets.length ⟨[], mergeSpans int32 spans, [], buckets, 0, 0⟩ =
        some c.wrap ∧
      CompactInv m d spans (populated (entries spans (absolute d 0 buckets))) c ∧ P c ∧
      c.buckets = [] := by
  have hstart : CompactInv m d spans (populated (entries spans (absolute d 0 buckets)))
      ⟨[], mergeSpans id spans, [], buckets, 0, 0⟩ := by
    refine ⟨rfl, ?_, .inl rfl, mergeSpans_pos spans, mergeSpans_gap, fun _ _ => rfl, ?_, by simp⟩
    · rw [← length_indices 0, nil_append, indices_mergeSpans, length_indices]
      exact h
    · rw [nil_append, entries, indices_mergeSpans]
      rfl
  obtain ⟨c, hloop, hinv, hPc, hb⟩ := CompactInv.loop hkeep hcut hstart hP (le_refl _)
  refine ⟨c, ?_, hinv, hPc, hb⟩
  have hwrap := loop_wrap (m := m) (d := d) ⟨[], mergeSpans id spans, [], buckets, 0, 0⟩
    buckets.length
  rw [hloop] at hwrap
  simpa [Cursor.wrap, mergeSpans_wrap] using hwrap

end Cut

/-! ### The canonical form -/

/-- The buckets `es`, none of them empty, and spans that are the maximal runs of their indices. -/
structure Canonical (d : Bool) (es : List (ℤ × C)) (r : List C × List Span) : Prop where
  agree : Agree r.2 r.1
  clean : Clean r.2
  nonzero : ∀ x ∈ absolute d 0 r.1, x ≠ 0
  populated_eq : populated (entries r.2 (absolute d 0 r.1)) = es

variable {r : List C × List Span} {es : List (ℤ × C)}

lemma Canonical.entries_eq (h : Canonical d es r) : entries r.2 (absolute d 0 r.1) = es := by
  rw [← h.populated_eq, populated, filter_eq_self.2]
  intro e he
  simpa using h.nonzero e.2 (of_mem_zip he).2

lemma Canonical.indices_eq (h : Canonical d es r) : indices 0 r.2 = es.map Prod.fst := by
  have hagree : Agree r.2 (absolute d 0 r.1) := ⟨by simpa using h.agree.length_eq, h.agree.offsets⟩
  rw [← h.entries_eq, hagree.map_fst_entries]

/-- There is one canonical form. -/
lemma Canonical.unique {r' : List C × List Span} (h : Canonical d es r)
    (h' : Canonical d es r') : r = r' := by
  have hagree : Agree r.2 (absolute d 0 r.1) := ⟨by simpa using h.agree.length_eq, h.agree.offsets⟩
  have hagree' : Agree r'.2 (absolute d 0 r'.1) :=
    ⟨by simpa using h'.agree.length_eq, h'.agree.offsets⟩
  refine Prod.ext (absolute_injective d 0 ?_)
    (h.clean.eq_of_indices_eq 0 h'.clean (h.indices_eq.trans h'.indices_eq.symm))
  rw [← hagree.map_snd_entries, h.entries_eq, ← h'.entries_eq, hagree'.map_snd_entries]

/-- The offsets of the canonical form are `int32`s exactly if the gaps between the buckets are not
too long. -/
lemma Canonical.gapsFit_iff (h : Canonical d es r) :
    GapsFit (es.map Prod.fst) ↔ ∀ s ∈ r.2, IsInt32 s.offset := by
  have hmem : ∀ i, i ∈ indices 0 r.2 ↔ i ∈ es.map Prod.fst := fun i => by rw [h.indices_eq]
  have htight : Clean.Tight (es.map Prod.fst) r.2 :=
    { h.clean with
      subset := fun i => (hmem i).2
      first := fun as s bs heq => by
        have hs := h.clean.pos s (by simp [heq])
        rw [← hmem, heq]
        exact mem_indices_span (le_refl _) (by omega) bs
      last := fun as s bs heq => by
        have hs := h.clean.pos s (by simp [heq])
        rw [← hmem, heq, endIdx_append]
        exact mem_indices_span (by simp only [endIdx]; omega) (by simp only [endIdx]; omega) bs }
  refine htight.gapsFit_iff fun i j hij hall => ?_
  -- All indices between neighbours would be neighbours.
  obtain ⟨-, -, hlt, hnext⟩ := hij
  have hadj : j = i + 1 := by
    by_contra hne
    have := hnext (i + 1) ((hmem _).1 (hall (i + 1) (by omega) (by omega)))
    omega
  simp [hadj, IsInt32]

section Compact

variable {spans : List Span}

/-- With `maxEmptyBuckets = 0` there is a bucket for each place in the spans, whatever the offsets.
-/
lemma compactBuckets_sized (h : countSpans spans = buckets.length) (d : Bool) :
    ∃ r, compactBuckets buckets spans 0 d = some r ∧ countSpans r.2 = r.1.length ∧
      r.1.length ≤ buckets.length := by
  unfold compactBuckets
  by_cases hnothing : nothingToDo buckets spans 0 d = true
  · exact ⟨_, if_pos hnothing, h, le_refl _⟩
  obtain ⟨c, hloop, hinv, hle, hb⟩ := cut_spec (m := 0) (d := d)
    (P := fun c => (c.bucketsDone ++ c.buckets).length ≤ buckets.length) h
    (fun c c' as hinv hle hk => by simpa [hk.bucketsDone, hk.buckets] using hle)
    (fun c c' s ss as bs hinv hle hc => by
      obtain ⟨bs', abs, rfl, hbs, -⟩ := hc.eq
      have hlen : bs'.length = bs.length := by simpa using congrArg length hbs
      obtain ⟨hbd, hbuckets, -⟩ := cutSpan_rest id
        { c with buckets := bs', currentBucketAbsolute := abs } s ss as.length
      rw [hbd, hbuckets]
      simp only [hc.buckets, length_append] at hle ⊢
      omega)
    (le_refl _)
  have hlen := hinv.length_eq
  refine ⟨(c.bucketsDone, wrapOffsets (c.spansDone ++ c.spans)), ?_, ?_, ?_⟩
  · simp [if_neg hnothing, hloop, hb, Cursor.wrap]
  · simpa [hb] using hlen
  · simpa [hb] using hle

/-- **With `maxEmptyBuckets = 0`** the result is the canonical form. Its offsets are wrapped, or it
is what was there before. -/
lemma compactBuckets_cases (h : Agree spans buckets) (d : Bool) :
    ∃ r, Canonical d (populated (entries spans (absolute d 0 buckets))) r ∧
      (compactBuckets buckets spans 0 d = some (r.1, wrapOffsets r.2) ∨
        compactBuckets buckets spans 0 d = some r ∧ r.2 = spans) := by
  unfold compactBuckets
  by_cases hnothing : nothingToDo buckets spans 0 d = true
  · refine ⟨(buckets, spans), ?_, .inr ⟨if_pos hnothing, rfl⟩⟩
    simp only [nothingToDo, Bool.and_eq_true, all_eq_true, decide_eq_true_eq, not_or] at hnothing
    refine ⟨h, ⟨fun s hs => ?_, fun s hs => ?_⟩, ?_, rfl⟩
    · exact Nat.pos_of_ne_zero (hnothing.2 s hs).2
    · simpa using (hnothing.2 s (mem_of_mem_tail hs)).1
    · cases d <;> simpa [absolute_true] using hnothing.1
  obtain ⟨c, hloop, hinv, -, hb⟩ := cut_spec (P := fun _ => True) (m := 0) (d := d) h.length_eq
    (fun _ _ _ _ _ _ => trivial) (fun _ _ _ _ _ _ _ _ _ => trivial) trivial
  have hclean := hinv.clean h.offsets
  refine ⟨(c.bucketsDone, c.spansDone ++ c.spans), ⟨⟨?_, hclean.nonnegOffsets⟩, hclean,
    hinv.nonzero rfl, ?_⟩, .inl ?_⟩
  · simpa [hb] using hinv.length_eq
  · simpa [hb] using hinv.populated
  · simp [if_neg hnothing, hloop, hb, Cursor.wrap]

/-- With gaps that are not too long, the result is the canonical form. -/
lemma compactBuckets_clean (h : Agree spans buckets) (d : Bool)
    (hfit : GapsFit ((populated (entries spans (absolute d 0 buckets))).map Prod.fst)) :
    ∃ r, compactBuckets buckets spans 0 d = some r ∧
      Canonical d (populated (entries spans (absolute d 0 buckets))) r := by
  obtain ⟨r, hr, heq | ⟨heq, -⟩⟩ := compactBuckets_cases h d
  · exact ⟨r, by rw [heq, wrapOffsets_eq_self.2 (hr.gapsFit_iff.1 hfit)], hr⟩
  · exact ⟨r, heq, hr⟩

end Compact

end Prometheus.Histogram
