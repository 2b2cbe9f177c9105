import Prometheus.Histogram.ZeroBucket

/-!
# Adding buckets

`addBuckets` adds each bucket that is not below the threshold once (`Adding.run_spec`). It goes
through the spans of the receiver with a cursor, and adds to a bucket, or inserts one and changes
the spans around it.

The distances between indices are `int32`s. They are exact if all indices, and the offset of the
first span, are in a window of less than `2 ^ 31` integers (`Windowed`); adding a bucket in the
window keeps this.

Within the window there is one way to go wrong. The first bucket to add is compared with the offset
of the first span, not with its buckets. If they are equal and the span is empty, the count goes to
the first bucket that there is, which is for another index (`landing`). There may be none.
-/

namespace Prometheus.Histogram

open List Nat GoInt

variable (negative : Bool)

/-- What is added of a count. -/
def signed (x : ℚ) : ℚ :=
  if negative then -x else x

attribute [local simp] NonnegOffsets signed indices_append

lemma signed_add (x y : ℚ) : signed negative (x + y) = signed negative x + signed negative y := by
  cases negative <;> simp
  ring

lemma signed_injective : Function.Injective (signed negative) := by
  intro x y h
  cases negative <;> simpa using h

/-! ### Edits -/

lemma modifyTailIdx_append {α : Type} (f : List α → List α) (as bs : List α) :
    (as ++ bs).modifyTailIdx as.length f = as ++ f bs := by
  simpa using modifyTailIdx_add f 0 as bs

section Edits

variable (p : ℤ → Bool) {is js : List ℤ} {i : ℤ} {bs : List ℚ} (b : ℚ)

/-- A bucket that is added to. -/
lemma sumOver_zip_modify (h : is.length < bs.length) :
    sumOver p ((is ++ i :: js).zip (bs.modify is.length (· + b))) =
      sumOver p ((is ++ i :: js).zip bs) + if p i then b else 0 := by
  obtain ⟨cs, ds, rfl, hcs⟩ : ∃ cs ds, bs = cs ++ ds ∧ is.length = cs.length :=
    ⟨bs.take is.length, bs.drop is.length, by simp, by simp [h.le]⟩
  obtain _ | ⟨d, ds⟩ := ds
  · simp [hcs] at h
  rw [hcs, List.modify, modifyTailIdx_append, zip_append hcs, zip_append hcs]
  simp only [modifyHead_cons, zip_cons_cons, sumOver_append, sumOver_cons]
  split_ifs <;> ring

/-- A bucket that is inserted. -/
lemma sumOver_zip_insertIdx (h : is.length ≤ bs.length) :
    sumOver p ((is ++ i :: js).zip (bs.insertIdx is.length b)) =
      sumOver p ((is ++ js).zip bs) + if p i then b else 0 := by
  obtain ⟨cs, ds, rfl, hcs⟩ : ∃ cs ds, bs = cs ++ ds ∧ is.length = cs.length :=
    ⟨bs.take is.length, bs.drop is.length, by simp, by simp [h]⟩
  rw [hcs, insertIdx, modifyTailIdx_append, zip_append hcs, zip_append hcs]
  simp only [zip_cons_cons, sumOver_append, sumOver_cons]
  ring

end Edits

section Spans

variable {us vs : List Span} {s : Span}

/-- Bucket `m` of a span. -/
lemma indices_split (us vs : List Span) {m : ℕ} (hm : m < s.length) : ∃ is js,
    indices 0 (us ++ s :: vs) = is ++ (endIdx 0 us + s.offset + m) :: js ∧
      is.length = countSpans us + m := by
  have hsplit : s.length = m + (1 + (s.length - m - 1)) := by omega
  refine ⟨indices 0 us ++ indexRange (endIdx 0 us + s.offset) m,
    indexRange (endIdx 0 us + s.offset + m + 1) (s.length - m - 1) ++
      indices (endIdx 0 us + s.offset + s.length) vs, ?_, by simp⟩
  rw [indices_append, indices, hsplit, indexRange_add, indexRange_add]
  simp [indexRange]

lemma nonnegOffsets_edit {s' : Span} {vs' : List Span} (h : NonnegOffsets (us ++ s :: vs))
    (hs : s'.offset = s.offset) (hvs : (∀ t ∈ vs, 0 ≤ t.offset) → ∀ t ∈ vs', 0 ≤ t.offset) :
    NonnegOffsets (us ++ s' :: vs') := by
  cases us <;> simp_all [NonnegOffsets, or_imp, forall_and]

lemma indices_addOffset (idx k : ℤ) (spans : List Span) :
    indices idx (addOffset id k spans) = indices (idx + k) spans := by
  cases spans with
  | nil => rfl
  | cons s ss =>
    have h : idx + (s.offset + k) = idx + k + s.offset := by ring
    simp [addOffset, indices, h]

/-- An offset that becomes smaller, but not negative. -/
lemma modifyHead_sub_offset {k : ℤ}
    (hk : ∀ t ∈ vs.head?, IsInt32 t.offset ∧ 0 ≤ k ∧ k ≤ t.offset) :
    vs.modifyHead (fun s => { s with offset := int32 (s.offset - k) }) = addOffset id (-k) vs := by
  cases vs with
  | nil => rfl
  | cons t ts =>
    obtain ⟨⟨-, hlt⟩, hk, hle⟩ := hk t rfl
    have hexact : int32 (t.offset - k) = t.offset - k := int32_eq_self.2 ⟨by omega, by omega⟩
    rw [modifyHead_cons, hexact]
    rfl

lemma addOffset_nonneg {k : ℤ} (hk : ∀ t ∈ vs.head?, k ≤ t.offset) (h : ∀ t ∈ vs, 0 ≤ t.offset) :
    ∀ t ∈ addOffset id (-k) vs, 0 ≤ t.offset := by
  cases vs <;> simp_all [addOffset]

lemma addOffset_isInt32 {k : ℤ} (hk : ∀ t ∈ vs.head?, 0 ≤ k ∧ k ≤ t.offset)
    (h : ∀ t ∈ vs, IsInt32 t.offset) : ∀ t ∈ addOffset id (-k) vs, IsInt32 t.offset := by
  cases vs with
  | nil => simp [addOffset]
  | cons t ts =>
    rw [forall_mem_cons] at h
    have hk := hk t rfl
    have ht := h.1
    refine forall_mem_cons.2 ⟨?_, h.2⟩
    simp only [IsInt32, id] at ht ⊢
    omega

/-! ### A window for the indices -/

/-- The integers in a window of `2 ^ 31 - 1` `int32`s from `lo` on. -/
def InWindow (lo i : ℤ) : Prop :=
  lo ≤ i ∧ i < lo + (2 ^ 31 - 1)

/-- The window consists of `int32`s. -/
def IsWindow (lo : ℤ) : Prop :=
  -2 ^ 31 ≤ lo ∧ lo ≤ 1

instance (lo i : ℤ) : Decidable (InWindow lo i) :=
  inferInstanceAs (Decidable (_ ∧ _))

/-- Spans with all indices, and the offset of the first span, in the window from `lo` on. -/
structure Windowed (lo : ℤ) (spans : List Span) : Prop where
  offset : ∀ s ∈ spans, IsInt32 s.offset
  first : ∀ i ∈ spans.head?.map Span.offset, InWindow lo i
  index : ∀ i ∈ indices 0 spans, InWindow lo i

variable {lo : ℤ}

/-- A span is not longer than the window. -/
lemma Windowed.length_lt (h : Windowed lo (us ++ s :: vs)) : (s.length : ℤ) < 2 ^ 31 := by
  by_contra hge
  have hfirst := h.index _ (mem_indices_span (le_refl (endIdx 0 us + s.offset)) (by omega) vs)
  have hlast := h.index (endIdx 0 us + s.offset + (2 ^ 31 - 1))
    (mem_indices_span (by omega) (by omega) vs)
  simp only [InWindow] at hfirst hlast
  omega

lemma indices_append_cons : indices 0 (us ++ s :: vs) =
    indices 0 (us ++ [s]) ++ indices (endIdx 0 us + s.offset + s.length) vs := by
  simp [indices]

variable {s' : Span} {vs' : List Span}

/-- The first span stays where it is. -/
lemma Windowed.first_edit (h : Windowed lo (us ++ s :: vs)) (hs' : s'.offset = s.offset) :
    ∀ k ∈ (us ++ s' :: vs').head?.map Span.offset, InWindow lo k := by
  intro k hk
  refine h.first k ?_
  cases us <;> simp_all

lemma Windowed.offset_edit (h : Windowed lo (us ++ s :: vs)) (hs' : s'.offset = s.offset)
    (hvs' : ∀ t ∈ vs', IsInt32 t.offset) : ∀ t ∈ us ++ s' :: vs', IsInt32 t.offset := by
  intro t ht
  rcases mem_append.1 ht with ht | ht
  · exact h.offset t (mem_append_left _ ht)
  rcases mem_cons.1 ht with rfl | ht
  · exact hs' ▸ h.offset s (by simp)
  · exact hvs' t ht

lemma bucketIndices_eq_of_window {spans : List Span} (hlo : IsWindow lo)
    (h : ∀ i ∈ indices 0 spans, InWindow lo i) : bucketIndices spans = indices 0 spans := by
  refine (map_congr_left fun i hi => int32_eq_self.2 ?_).trans (map_id _)
  have := h i hi
  simp only [InWindow, IsWindow, IsInt32] at this hlo ⊢
  omega

end Spans

variable (spans : List Span)

/-- There is no bucket, but the first span says that there is one, for `i`. -/
def StuckAt (buckets : List ℚ) (i : ℤ) : Prop :=
  buckets = [] ∧ spans.head?.map Span.offset = some i

/-- The index of the bucket that a count for `i` goes to, if it is the first one. -/
def landing (i : ℤ) : Option ℤ :=
  if spans.head?.map Span.offset = some i then (indices 0 spans).head? else some i

lemma landing_eq_none_iff {spans : List Span} {buckets : List ℚ} (h : Agree spans buckets) {i : ℤ} :
    landing spans i = none ↔ StuckAt spans buckets i := by
  rw [StuckAt, ← length_eq_zero_iff, ← h.length_eq, ← length_indices 0, landing, length_eq_zero_iff]
  split_ifs with hfirst <;> simp [hfirst]

/-! ### The cursor -/

/-- `iBucket` is the bucket `iInSpan` of span `iSpan`, or the end of the span, and has the index
`i`. -/
def CursorAt (iSpan : ℕ) (iBucket iInSpan i : ℤ) : Prop :=
  ∃ us s vs, spans = us ++ s :: vs ∧ us.length = iSpan ∧ iBucket = countSpans us + iInSpan ∧
    0 ≤ iInSpan ∧ iInSpan ≤ s.length ∧ i = endIdx 0 us + s.offset + iInSpan

namespace Adding

/-- The last bucket was added at `i`. -/
def At (a : Adding) (i : ℤ) : Prop :=
  match a.cursor with
  | none => a.spansA.head?.map Span.offset = some i
  | some (iSpan, iBucket, iInSpan) => CursorAt a.spansA iSpan iBucket iInSpan i

/-- `a'` is `a` with one more count, for the index `j`, and is at the index `i`. -/
structure Added (lo : ℤ) (a a' : Adding) (j : ℤ) (b : ℚ) (i : ℤ) : Prop where
  agree : Agree a'.spansA a'.bucketsA
  window : Windowed lo a'.spansA
  sumOver_eq : ∀ p, sumOver p (entries a'.spansA a'.bucketsA) =
    sumOver p (entries a.spansA a.bucketsA) + if p j then b else 0
  at_index : a'.At i

variable {lo : ℤ} {a : Adding} {b : ℚ} {i : ℤ} (hlo : IsWindow lo)
  (h : Agree a.spansA a.bucketsA) (hwin : Windowed lo a.spansA) (hi : InWindow lo i)

include h hwin hi

/-- A new bucket at the place of its index. -/
lemma added_insert {a' : Adding} (is : List ℤ) {js : List ℤ} (hold : indices 0 a.spansA = is ++ js)
    (hnew : indices 0 a'.spansA = is ++ i :: js)
    (hbuckets : a'.bucketsA = a.bucketsA.insertIdx is.length b) (hoff : NonnegOffsets a'.spansA)
    (hint : ∀ s ∈ a'.spansA, IsInt32 s.offset)
    (hfirst : ∀ k ∈ a'.spansA.head?.map Span.offset, InWindow lo k) (hat : a'.At i) :
    Added lo a a' i b i := by
  have hlen := h.length_eq
  rw [← length_indices 0, hold] at hlen
  have hle : is.length ≤ a.bucketsA.length := by simp [← hlen]
  refine ⟨⟨?_, hoff⟩, ⟨hint, hfirst, fun k hk => ?_⟩, fun p => ?_, hat⟩
  · rw [← length_indices 0, hnew, hbuckets, length_insertIdx_of_le_length hle, ← hlen]
    simp [add_assoc]
  · have hold' : ∀ k ∈ is ++ js, InWindow lo k := hold ▸ hwin.index
    rw [hnew, mem_append, mem_cons] at hk
    rcases hk with hk | rfl | hk
    · exact hold' k (mem_append_left _ hk)
    · exact hi
    · exact hold' k (mem_append_right _ hk)
  · rw [entries, entries, hnew, hold, hbuckets, sumOver_zip_insertIdx p b hle]

/-- A new bucket behind a span, at the start of the next one. -/
lemma added_behind {us vs ts : List Span} {s t : Span} (hspans : a.spansA = us ++ s :: vs)
    (hoffset : 0 ≤ t.offset) (hshort : t.offset < 2 ^ 31)
    (heq : i = endIdx 0 us + s.offset + s.length + t.offset)
    (hindices : indices (endIdx 0 us + s.offset + s.length) (t :: ts) =
      i :: indices (endIdx 0 us + s.offset + s.length) vs)
    (hts : (∀ t ∈ vs, 0 ≤ t.offset) → ∀ t ∈ ts, 0 ≤ t.offset) (hints : ∀ t ∈ ts, IsInt32 t.offset) :
    Added lo a { a with
      spansA := us ++ s :: t :: ts, bucketsA := a.bucketsA.insertIdx (countSpans us + s.length) b
      cursor := some (us.length + 1, (countSpans us + s.length : ℕ), 0) } i b i := by
  have hold : indices 0 a.spansA = _ := hspans ▸ indices_append_cons
  have hwin' : Windowed lo (us ++ s :: vs) := hspans ▸ hwin
  refine added_insert h hwin hi _ hold ?_ (by simp)
    (nonnegOffsets_edit (hspans ▸ h.offsets) rfl fun hvs => forall_mem_cons.2 ⟨hoffset, hts hvs⟩)
    (hwin'.offset_edit rfl (forall_mem_cons.2 ⟨⟨by omega, hshort⟩, hints⟩))
    (hwin'.first_edit rfl) ?_
  · rw [← hindices]
    simp [indices]
  · refine ⟨us ++ [s], t, ts, by simp, by simp, by simp, le_refl _, by simp, ?_⟩
    simp [endIdx_append, endIdx, heq]

/-- A new bucket in the gap behind a span: the span, or the one behind it, becomes longer, or there
is a span of its own. -/
lemma insertInGap_spec {us vs : List Span} {s : Span} {delta : ℤ} {ib : ℕ}
    (hspans : a.spansA = us ++ s :: vs) (hib : ib = countSpans us + s.length) (hdelta : 0 ≤ delta)
    (hshort : delta < 2 ^ 31)
    (hnext : ∀ t ∈ vs.head?, delta < t.offset)
    (heq : i = endIdx 0 us + s.offset + s.length + delta) :
    ∃ a', a.insertInGap delta (us.length + 1) ib b = some a' ∧ Added lo a a' i b i := by
  subst hib
  have hle : countSpans us + s.length ≤ a.bucketsA.length := by
    rw [← h.length_eq, hspans]
    simp
  have hmodify : ∀ f, a.spansA.modify (us.length + 1) f = us ++ s :: vs.modifyHead f := fun f => by
    simpa [hspans, List.modify] using modifyTailIdx_append (modifyHead f) (us ++ [s]) vs
  have hwin' : Windowed lo (us ++ s :: vs) := hspans ▸ hwin
  have hvs : ∀ t ∈ vs, IsInt32 t.offset := fun t ht => hwin'.offset t (by simp [ht])
  have hhead : ∀ t ∈ vs.head?, IsInt32 t.offset := fun t ht => hvs t (mem_of_mem_head? ht)
  have hsub := fun k (hk : 0 ≤ k) (hle : ∀ t ∈ vs.head?, k ≤ t.offset) =>
    modifyHead_sub_offset fun t ht => ⟨hhead t ht, hk, hle t ht⟩
  simp only [insertInGap, hmodify]
  rw [if_pos ⟨by omega, by exact_mod_cast hle⟩]
  simp only [Int.toNat_natCast, Nat.add_sub_cancel]
  split_ifs with hzero hadjacent
  · -- The previous span becomes longer.
    have hone : ∀ t ∈ vs.head?, 1 ≤ t.offset := fun t ht => by
      have := hnext t ht
      omega
    have hslen : (s.length : ℤ) < 2 ^ 31 := hwin'.length_lt
    have hgrow : (us ++ s :: addOffset id (-1) vs).modify us.length
        (fun s => { s with length := uint32 (s.length + 1) }) =
          us ++ { s with length := s.length + 1 } :: addOffset id (-1) vs := by
      have hexact : uint32 (s.length + 1) = s.length + 1 := by
        exact_mod_cast uint32_eq_self (x := s.length + 1) (by omega)
      rw [← hexact]
      exact modifyTailIdx_append _ us _
    have hslen' : int32 s.length = s.length := int32_eq_self.2 ⟨by omega, by omega⟩
    have hold : indices 0 a.spansA = _ := hspans ▸ indices_append_cons
    have hoff : NonnegOffsets (us ++ s :: vs) := hspans ▸ h.offsets
    simp only [hsub 1 (by omega) hone, hgrow, getElem?_append_right (le_refl _), Nat.sub_self,
      getElem?_cons_zero, Option.map_some, Option.getD_some, hslen']
    refine ⟨_, rfl, added_insert h hwin hi _ hold ?_ (by simp)
      (nonnegOffsets_edit hoff rfl (addOffset_nonneg hone))
      (hwin'.offset_edit rfl (addOffset_isInt32 (fun t ht => ⟨by omega, hone t ht⟩) hvs))
      (hwin'.first_edit rfl) ?_⟩
    · simp [indices, indices_addOffset, indexRange_succ, heq, hzero]
      exact congrArg (indices · vs) (by ring)
    · exact ⟨us, _, _, rfl, rfl, by simp, by omega, by simp, by simp [heq, hzero]⟩
  · -- The next span becomes longer.
    obtain _ | ⟨t, ts⟩ := vs
    · simp [hspans] at hadjacent
    have htlt := hnext t rfl
    have hexact : int32 (t.offset - 1) = t.offset - 1 :=
      int32_eq_self.2 ⟨by omega, by have := (hhead t rfl).2; omega⟩
    have ht : delta = t.offset - 1 := by simpa [hspans, hexact] using hadjacent
    have htlen : (t.length : ℤ) < 2 ^ 31 := Windowed.length_lt
      (show Windowed _ ((us ++ [s]) ++ t :: ts) by simpa using hwin')
    have hlength : uint32 (t.length + 1) = t.length + 1 := by
      exact_mod_cast uint32_eq_self (x := t.length + 1) (by omega)
    simp only [modifyHead_cons, hexact, hlength]
    rw [← ht]
    refine ⟨_, rfl, added_behind h hwin hi hspans hdelta hshort heq ?_
      (fun hvs => (forall_mem_cons.1 hvs).2) (forall_mem_cons.1 hvs).2⟩
    generalize endIdx 0 us + s.offset + s.length = e at heq ⊢
    have hstart : e + t.offset = i + 1 := by omega
    simp [indices, indexRange_cons, ← heq, hstart, add_comm, add_left_comm]
  · -- A span of its own.
    have hle' : ∀ t ∈ vs.head?, delta + 1 ≤ t.offset := fun t ht => by
      have := hnext t ht
      omega
    have hown : (us ++ s :: addOffset id (-(delta + 1)) vs).insertIdx (us.length + 1) ⟨delta, 1⟩ =
        us ++ s :: ⟨delta, 1⟩ :: addOffset id (-(delta + 1)) vs := by
      simpa [insertIdx] using modifyTailIdx_append (cons (⟨delta, 1⟩ : Span)) (us ++ [s]) _
    simp only [hsub (delta + 1) (by omega) hle', hown]
    refine ⟨_, rfl, added_behind h hwin hi hspans hdelta hshort heq ?_ (addOffset_nonneg hle')
      (addOffset_isInt32 (fun t ht => ⟨by omega, hle' t ht⟩) hvs)⟩
    simp [indices, indices_addOffset, indexRange, heq]

/-- The loop goes on to the next span as long as there is one that the bucket is behind. -/
lemma seek_spec (fuel : ℕ) {delta ib ii : ℤ} {k : ℕ} (hdelta : 0 ≤ delta) (hshort : delta < 2 ^ 31)
    (hat : CursorAt a.spansA k ib ii (i - delta)) (hfuel : a.spansA.length ≤ k + fuel) :
    ∃ a', a.seek b fuel delta k ib ii = some a' ∧ Added lo a a' i b i := by
  induction fuel generalizing delta k ib ii with
  | zero =>
    obtain ⟨us, s, vs, hspans, rfl, -⟩ := hat
    simp [hspans] at hfuel
  | succ fuel ih =>
    obtain ⟨us, s, vs, hspans, rfl, rfl, hii, hle, heq⟩ := hat
    have hget : a.spansA[us.length]? = some s := by simp [hspans]
    have hnext : a.spansA[us.length + 1]? = vs.head? := by
      rw [hspans, getElem?_append_right (by omega)]
      simp [head?_eq_getElem?]
    have hlen := h.length_eq
    simp only [hspans, countSpans_append, countSpans_cons] at hlen
    have hslen : (s.length : ℤ) < 2 ^ 31 := (hspans ▸ hwin).length_lt
    rw [seek, hget, Option.bind_eq_bind, Option.bind_some,
      int32_of_nonneg (x := s.length) (by omega) hslen,
      int32_of_nonneg (sub_nonneg.2 hle) (by omega)]
    dsimp only
    split_ifs with hin hlt
    · -- The bucket is there.
      lift ii to ℕ using hii with n
      lift delta to ℕ using hdelta with d
      obtain ⟨is, js, hindices, his⟩ := indices_split us vs (show n + d < s.length by omega)
      have hi' : endIdx 0 us + s.offset + (n + d : ℕ) = i := by omega
      rw [← hspans, hi'] at hindices
      have hplace : ((countSpans us : ℤ) + n + d).toNat = is.length := by omega
      refine ⟨_, rfl, ⟨by simpa using h.length_eq, h.offsets⟩, hwin, fun p => ?_,
        us, s, vs, hspans, rfl, ?_⟩
      · rw [hplace, entries, entries, hindices, sumOver_zip_modify p b (by omega)]
      · rw [int32_of_nonneg (by omega) (by omega)]
        exact ⟨by omega, by omega, by omega, by omega⟩
    · omega
    rw [int32_of_nonneg (sub_nonneg.2 (not_lt.1 hin)) (by omega)]
    generalize hrest : delta - (s.length - ii) = rest
    have hrest' : 0 ≤ rest := by omega
    have hib : (countSpans us : ℤ) + ii + (s.length - ii) = (countSpans us + s.length : ℕ) := by
      push_cast
      ring
    rw [hib, hnext]
    have hgap := insertInGap_spec (b := b) h hwin hi hspans rfl hrest' (by omega)
    obtain _ | ⟨t, ts⟩ := vs
    · exact hgap (by simp) (by omega)
    simp only [head?_cons]
    split_ifs with hbefore
    · exact hgap (by simpa using hbefore) (by omega)
    have htoff : 0 ≤ t.offset := by
      have hoff := h.offsets
      rw [hspans] at hoff
      cases us <;> exact hoff t (by simp)
    rw [int32_of_nonneg (sub_nonneg.2 (not_lt.1 hbefore)) (by omega)]
    refine ih (by omega) (by omega) ⟨us ++ [s], t,
      ts, by simp [hspans], by simp, by simp, le_refl _,
      by simp, ?_⟩ (by omega)
    simp only [endIdx_append, endIdx]
    omega

include hlo

lemma add_spec {j : ℤ} (hat : a.cursor ≠ none → a.At a.indexA ∧ a.indexA ≤ i ∧ InWindow lo a.indexA)
    (hj : (if a.cursor = none then landing a.spansA i else some i) = some j) :
    ∃ a', a.add i b = some a' ∧ Added lo a a' j b i ∧ a'.indexA = i := by
  -- The index is only noted at the end.
  suffices h : ∃ a₁, a.add i b = some { a₁ with indexA := i } ∧ Added lo a a₁ j b i by
    obtain ⟨a₁, heq, hagree, hwin, hsum, hat⟩ := h
    exact ⟨_, heq, ⟨hagree, hwin, hsum, hat⟩, rfl⟩
  have hwindow := hi
  simp only [InWindow, IsWindow] at hwindow hlo
  unfold add landing at *
  rcases hcursor : a.cursor with _ | ⟨k, ib, ii⟩
  · rcases hspans : a.spansA with _ | ⟨s, ss⟩
    · -- The first bucket.
      obtain rfl : i = j := by simpa [hspans] using hj
      refine ⟨_, rfl, added_insert h hwin hi [] rfl ?_ rfl ?_ ?_ ?_ ?_⟩
      · simp [hspans, indices, indexRange]
      · simp
      · simp only [mem_singleton, forall_eq, IsInt32]
        omega
      · simpa using hi
      · simp [At]
    · simp only [hcursor, hspans, if_true, head?_cons, Option.map_some, Option.some.injEq] at hj
      have hoff := h.offsets
      have hint := hwin.offset
      have hfirst := hwin.first s.offset (by simp [hspans])
      have hslen : (s.length : ℤ) < 2 ^ 31 :=
        Windowed.length_lt (show Windowed _ ([] ++ s :: _) by simpa [hspans] using hwin)
      rw [hspans] at hoff hint
      simp only [InWindow] at hfirst
      have hss := (forall_mem_cons.1 hint).2
      by_cases hbefore : s.offset > i
      · -- Before all others.
        obtain rfl : i = j := by simpa [hbefore.ne'] using hj
        have hsucc : int32 (i + 1) = i + 1 := int32_eq_self.2 ⟨by omega, by omega⟩
        have hpred : int32 (s.offset - 1) = s.offset - 1 := int32_eq_self.2 ⟨by omega, by omega⟩
        have hdist : int32 (s.offset - (i + 1)) = s.offset - (i + 1) :=
          int32_eq_self.2 ⟨by omega, by omega⟩
        have hlength : uint32 (s.length + 1) = s.length + 1 := by
          exact_mod_cast uint32_eq_self (x := s.length + 1) (by omega)
        simp only [if_pos hbefore, hsucc, hpred, hdist, hlength]
        refine ⟨_, rfl, added_insert h hwin hi [] rfl ?_ rfl ?_ ?_ ?_ ?_⟩ <;>
          split_ifs with hadjacent
        · simp [hspans, indices, indexRange_cons, hadjacent, add_comm, add_left_comm]
        · simp [hspans, indices, indexRange_cons]
        · exact hoff
        · exact forall_mem_cons.2 ⟨by simp only; omega, hoff⟩
        · exact forall_mem_cons.2 ⟨⟨by simp only; omega, by simp only; omega⟩, hss⟩
        · exact forall_mem_cons.2 ⟨⟨by simp only; omega, by simp only; omega⟩,
            forall_mem_cons.2 ⟨⟨by simp only; omega, by simp only; omega⟩, hss⟩⟩
        · simpa [hadjacent] using hi
        · simpa using hi
        · simp [At, hadjacent]
        · simp [At]
      by_cases heq : s.offset = i
      · -- The first bucket, which is for the index only if it is in this span.
        rw [if_pos heq] at hj
        obtain ⟨js, hindices⟩ := head?_eq_some_iff.1 hj
        have hlen := h.length_eq
        rw [← length_indices 0, hspans, hindices] at hlen
        rcases hbuckets : a.bucketsA with _ | ⟨c, cs⟩
        · simp [hbuckets] at hlen
        simp only [if_neg hbefore, if_pos heq]
        refine ⟨_, rfl, ⟨?_, hoff⟩, hspans ▸ hwin, fun p => ?_, by simp [At, heq]⟩
        · simpa [hspans, hbuckets] using h.length_eq
        · have := @sumOver_zip_modify p [] js j (c :: cs) b (by simp)
          simpa [entries, hspans, hindices, hbuckets] using this
      · obtain rfl : i = j := by simpa [heq] using hj
        have hdist : int32 (i - s.offset) = i - s.offset := int32_eq_self.2 ⟨by omega, by omega⟩
        obtain ⟨a₁, hseek, h⟩ := seek_spec (i := i) h hwin hi (a.spansA.length + 1)
          (show 0 ≤ i - s.offset by omega) (by omega) (show CursorAt _ 0 0 0 _ from
            ⟨[], s, ss, hspans, rfl, rfl, le_refl _, by simp, by simp⟩) (by omega)
        rw [hspans] at hseek
        exact ⟨a₁, by simp only [if_neg hbefore, if_neg heq, hdist, hseek]; rfl, h⟩
  · obtain ⟨hcur, hle, hindex⟩ := hat (by simp [hcursor])
    simp only [InWindow] at hindex
    obtain rfl : i = j := by simpa [hcursor] using hj
    have hdist : int32 (i - a.indexA) = i - a.indexA := int32_eq_self.2 ⟨by omega, by omega⟩
    obtain ⟨a₁, heq, h⟩ := seek_spec (i := i) h hwin hi (a.spansA.length + 1)
      (sub_nonneg.2 hle) (by omega) (by simpa [At, hcursor] using hcur) (by omega)
    exact ⟨a₁, by simp [hdist, heq], h⟩

omit h hwin hi hlo in
lemma add_stuck (hcursor : a.cursor = none) (hstuck : StuckAt a.spansA a.bucketsA i) :
    a.add i b = none := by
  obtain ⟨hbuckets, hoffset⟩ := hstuck
  rcases hspans : a.spansA with _ | ⟨s, ss⟩
  · simp [hspans] at hoffset
  · obtain rfl : s.offset = i := by simpa [hspans] using hoffset
    simp [add, hcursor, hspans, hbuckets]

omit hi in
/-- All buckets are added once none is skipped any more. -/
lemma run_false_spec (hat : a.At a.indexA) (hindex : InWindow lo a.indexA) (negative : Bool)
    (skip : ℤ → Bool) {is : List ℤ} {cs : List ℚ} (hlen : is.length = cs.length)
    (his : is.Pairwise (· < ·))
    (hin : ∀ i ∈ is, InWindow lo i) (hi : ∀ i ∈ is, a.indexA < i) :
    ∃ a', run negative skip false is cs a = some a' ∧ Agree a'.spansA a'.bucketsA ∧
      ∀ p, sumOver p (entries a'.spansA a'.bucketsA) =
        sumOver p (entries a.spansA a.bucketsA) + signed negative (sumOver p (is.zip cs)) := by
  induction is generalizing cs a with
  | nil => exact ⟨a, rfl, h, by simp⟩
  | cons i is ih =>
    obtain _ | ⟨c, cs⟩ := cs
    · simp at hlen
    obtain ⟨hlt, his⟩ := pairwise_cons.1 his
    have hnext := hi i mem_cons_self
    have hlanding : (if a.cursor = none then landing a.spansA i else some i) = some i := by
      refine ite_eq_right_iff.2 fun hcursor => if_neg fun hfirst => ?_
      simp [At, hcursor, hfirst] at hat
      omega
    obtain ⟨hini, hin⟩ := forall_mem_cons.1 hin
    obtain ⟨a₁, hadd, hadded, hindex'⟩ := add_spec hlo h hwin hini
      (fun _ => ⟨hat, hnext.le, hindex⟩) hlanding
    obtain ⟨a', hrun, hagree, hsum⟩ := ih hadded.agree hadded.window (hindex' ▸ hadded.at_index)
      (hindex' ▸ hini) (by simpa using hlen) his hin (hindex' ▸ hlt)
    refine ⟨a', ?_, hagree, fun p => ?_⟩
    · rw [run, if_neg (by simp), ← signed, hadd]
      exact hrun
    · rw [hsum, hadded.sumOver_eq, zip_cons_cons, sumOver_cons, signed_add, add_assoc]
      split_ifs <;> simp

variable (negative : Bool) (skip : ℤ → Bool) {is : List ℤ} {cs : List ℚ}

/-- The buckets that are not skipped. -/
def kept (skip : ℤ → Bool) (es : List (ℤ × ℚ)) : List (ℤ × ℚ) :=
  es.dropWhile fun e => skip e.1

omit hi in
/-- The result of the loops, by where the first bucket that is not skipped goes to. -/
theorem run_spec (hcursor : a.cursor = none) (hlen : is.length = cs.length)
    (his : is.Pairwise (· < ·)) (hin : ∀ i ∈ is, InWindow lo i) :
    (kept skip (is.zip cs) = [] → ∃ i, run negative skip true is cs a =
      some { a with indexA := i }) ∧
      ∀ i c es, kept skip (is.zip cs) = (i, c) :: es →
        (StuckAt a.spansA a.bucketsA i → run negative skip true is cs a = none) ∧
        ∀ j, landing a.spansA i = some j → ∃ a', run negative skip true is cs a = some a' ∧
          Agree a'.spansA a'.bucketsA ∧ ∀ p, sumOver p (entries a'.spansA a'.bucketsA) =
            sumOver p (entries a.spansA a.bucketsA) +
              signed negative (sumOver p ((j, c) :: es)) := by
  induction is generalizing cs a with
  | nil => exact ⟨fun _ => ⟨a.indexA, rfl⟩, by simp [kept]⟩
  | cons i is ih =>
    obtain _ | ⟨c, cs⟩ := cs
    · simp at hlen
    obtain ⟨hlt, his⟩ := pairwise_cons.1 his
    obtain ⟨hini, hin⟩ := forall_mem_cons.1 hin
    have hlen' : is.length = cs.length := by simpa using hlen
    by_cases hskip : skip i = true
    · have hkept : kept skip ((i :: is).zip (c :: cs)) = kept skip (is.zip cs) := by
        simp [kept, hskip]
      rw [hkept, run, if_pos ⟨rfl, hskip⟩]
      exact ih (a := { a with indexA := i }) h hwin hcursor hlen' his hin
    have hkept : kept skip ((i :: is).zip (c :: cs)) = (i, c) :: is.zip cs := by
      simp [kept, hskip]
    rw [hkept, run, if_neg (by simp [hskip]), ← signed]
    refine ⟨by simp, ?_⟩
    rintro _ _ _ ⟨⟩
    refine ⟨fun hstuck => by rw [add_stuck hcursor hstuck]; rfl, fun j hj => ?_⟩
    obtain ⟨a₁, hadd, hadded, hindex⟩ := add_spec hlo h hwin hini
      (fun h => absurd hcursor h) (by rwa [if_pos hcursor])
    obtain ⟨a', hrun, hagree, hsum⟩ := run_false_spec hlo hadded.agree hadded.window
      (hindex ▸ hadded.at_index) (hindex ▸ hini) negative skip hlen' his hin (hindex ▸ hlt)
    refine ⟨a', by rw [hadd]; exact hrun, hagree, fun p => ?_⟩
    rw [hsum, hadded.sumOver_eq, sumOver_cons, signed_add, add_assoc]
    split_ifs <;> simp

end Adding

/-- The first of the elements in `p` of an increasing list. -/
lemma head?_filter_eq_some_iff {l : List ℤ} (hl : l.Pairwise (· < ·)) {p : ℤ → Bool} {i : ℤ} :
    (l.filter p).head? = some i ↔ IsLeast {j | j ∈ l ∧ p j = true} i := by
  have hmem : ∀ j, j ∈ l.filter p ↔ j ∈ {j | j ∈ l ∧ p j = true} := fun j => mem_filter
  have hsorted := hl.filter p
  generalize l.filter p = m at hmem hsorted ⊢
  obtain _ | ⟨j, js⟩ := m
  · refine ⟨by simp, fun h => ?_⟩
    exact absurd ((hmem i).2 h.1) not_mem_nil
  have hleast : IsLeast {j | j ∈ l ∧ p j = true} j := by
    refine ⟨(hmem j).1 mem_cons_self, fun k hk => ?_⟩
    rcases mem_cons.1 ((hmem k).2 hk) with rfl | hk
    · exact le_refl _
    · exact (rel_of_pairwise_cons hsorted hk).le
  simp only [head?_cons, Option.some.injEq]
  exact ⟨fun h => h ▸ hleast, hleast.unique⟩

/-- What is skipped is at the front. -/
lemma Adding.kept_eq_filter {skip : ℤ → Bool} (hskip : ∀ i j, i ≤ j → skip j → skip i)
    {es : List (ℤ × ℚ)} (hes : es.Pairwise fun a b => a.1 < b.1) :
    Adding.kept skip es = es.filter fun e => !skip e.1 := by
  induction es with
  | nil => rfl
  | cons e es ih =>
    by_cases he : skip e.1 = true
    · rw [kept, dropWhile_cons_of_pos (by simpa using he), ← kept, ih hes.of_cons]
      simp [he]
    rw [kept, dropWhile_cons_of_neg (by simpa using he), filter_eq_self.2]
    intro e' he'
    rcases mem_cons.1 he' with rfl | he'
    · simpa using he
    · have hle := (rel_of_pairwise_cons hes he').le
      simpa using fun hs => he (hskip _ _ hle hs)

section AddBuckets

open Float64

/-- The indices that are added: those of buckets that end above the threshold `t`. -/
def addedIndices (schema : ℤ) (t : ℤ) (spans : List Span) : Set ℤ :=
  {i | i ∈ indices 0 spans ∧ t < upper schema i}

variable {schema : ℤ} {threshold : BitVec 64} {spansA spansB : List Span}
  {bucketsA bucketsB : List ℚ}

/-- Buckets that end at the threshold or below it are skipped. -/
def skips (schema : ℤ) (threshold : BitVec 64) (i : ℤ) : Bool :=
  isExponentialSchema schema && le (getBoundExponential i schema) threshold

/-- The indices of the two sides are in one window. -/
def FitInWindow (spansA spansB : List Span) : Prop :=
  ∃ lo, IsWindow lo ∧ Windowed lo spansA ∧ ∀ i ∈ indices 0 spansB, InWindow lo i

lemma addBuckets_cases (negative : Bool) (hA : Agree spansA bucketsA) (hB : Agree spansB bucketsB)
    (hfit : FitInWindow spansA spansB)
    {es : List (ℤ × ℚ)}
    (hes : Adding.kept (skips schema threshold) (entries spansB bucketsB) = es) :
    (es = [] → addBuckets schema threshold negative spansA bucketsA spansB bucketsB =
        some (spansA, bucketsA)) ∧
      ∀ i c es', es = (i, c) :: es' →
        (StuckAt spansA bucketsA i →
          addBuckets schema threshold negative spansA bucketsA spansB bucketsB = none) ∧
        ∀ j, landing spansA i = some j → ∃ spans' buckets',
          addBuckets schema threshold negative spansA bucketsA spansB bucketsB =
            some (spans', buckets') ∧
          Agree spans' buckets' ∧ ∀ p, sumOver p (entries spans' buckets') =
            sumOver p (entries spansA bucketsA) + signed negative (sumOver p ((j, c) :: es')) := by
  obtain ⟨lo, hlo, hwin, hin⟩ := hfit
  obtain ⟨hnil, hcons⟩ := Adding.run_spec (a := ⟨spansA, bucketsA, none, 0⟩) hlo hA hwin negative
    (skips schema threshold) rfl (by rw [length_indices, hB.length_eq])
    (pairwise_indices 0 hB.offsets) hin
  rw [← entries, hes] at hnil hcons
  rw [addBuckets, bucketIndices_eq_of_window hlo hin]
  refine ⟨fun h => ?_, fun i c es' h => ⟨fun hstuck => ?_, fun j hj => ?_⟩⟩
  · obtain ⟨i, hrun⟩ := hnil h
    exact congrArg (Option.map _) hrun
  · exact congrArg (Option.map _) ((hcons i c es' h).1 hstuck)
  · obtain ⟨a, hrun, hagree, hsum⟩ := (hcons i c es' h).2 j hj
    exact ⟨_, _, congrArg (Option.map _) hrun, hagree, hsum⟩

/-- The buckets that end above the threshold are added to those there are, or the first of them is
to be added to a bucket that there is not. -/
lemma addBuckets_spec (hs : isExponentialSchema schema = true) (hthreshold : IsThreshold threshold)
    (negative : Bool) (hA : Agree spansA bucketsA) (hB : Agree spansB bucketsB)
    (hfit : FitInWindow spansA spansB) :
    (∃ i, StuckAt spansA bucketsA i ∧ IsLeast (addedIndices schema (ord threshold) spansB) i) ∧
        addBuckets schema threshold negative spansA bucketsA spansB bucketsB = none ∨
      (¬∃ i, StuckAt spansA bucketsA i ∧ IsLeast (addedIndices schema (ord threshold) spansB) i) ∧
        ∃ spans' buckets',
          addBuckets schema threshold negative spansA bucketsA spansB bucketsB =
            some (spans', buckets') ∧
          buckets'.sum = bucketsA.sum + signed negative
            (sumOver (fun i => ord threshold < upper schema i) (entries spansB bucketsB)) := by
  set skip := skips schema threshold
  have hskip : ∀ i, skip i = !decide (ord threshold < upper schema i) := by
    intro i
    rw [Bool.eq_iff_iff, Bool.not_eq_true', decide_eq_false_iff_not, not_lt]
    simpa [skip, skips, hs, upper] using le_iff (isThreshold_bound hs i) hthreshold
  have hkept : Adding.kept skip (entries spansB bucketsB) =
      (entries spansB bucketsB).filter fun e => ord threshold < upper schema e.1 := by
    rw [Adding.kept_eq_filter _ (pairwise_entries hB.offsets _)]
    · simp [hskip]
    intro i j hij
    simp only [hskip, Bool.not_eq_true', decide_eq_false_iff_not, not_lt]
    exact (upper_mono hs hij).trans
  have hfirst : ∀ i, (∃ e ∈ (Adding.kept skip (entries spansB bucketsB)).head?, e.1 = i) ↔
      IsLeast (addedIndices schema (ord threshold) spansB) i := by
    intro i
    have hfst := hB.map_fst_entries
    have h := head?_filter_eq_some_iff (pairwise_indices 0 hB.offsets)
      (p := fun i => ord threshold < upper schema i) (i := i)
    rw [← hfst, filter_map, head?_map, Option.map_eq_some_iff] at h
    rw [hkept]
    simpa [addedIndices, hfst, Function.comp_def] using h
  have hsum : sumOver (fun i => ord threshold < upper schema i) (entries spansB bucketsB) =
      sumOver (fun _ => true) (Adding.kept skip (entries spansB bucketsB)) := by
    rw [hkept, sumOver_true]
    rfl
  simp only [← hfirst, hsum]
  rcases hes : Adding.kept skip (entries spansB bucketsB) with _ | ⟨⟨i, c⟩, es⟩
  · exact .inr ⟨by simp, spansA, bucketsA,
      (addBuckets_cases negative hA hB hfit hes).1 rfl, by simp⟩
  obtain ⟨hnone, hsome⟩ := (addBuckets_cases negative hA hB hfit hes).2 i c es rfl
  simp only [head?_cons, Option.mem_some_iff, exists_eq_left', exists_eq_right']
  rcases hj : landing spansA i with _ | j
  · have hstuck := (landing_eq_none_iff hA).1 hj
    exact .inl ⟨hstuck, hnone hstuck⟩
  refine .inr ⟨fun hstuck => ?_, ?_⟩
  · simp [(landing_eq_none_iff hA).2 hstuck] at hj
  obtain ⟨spans', buckets', heq, hagree, hsum⟩ := hsome j hj
  have := hsum fun _ => true
  rw [sumOver_true, sumOver_true, hagree.map_snd_entries, hA.map_snd_entries] at this
  exact ⟨spans', buckets', heq, this⟩

/-- The first bucket to add is for the offset of the first span, but not for the first bucket. -/
def Misplaced (spansA : List Span) (bucketsA : List ℚ) (spansB : List Span) (bucketsB : List ℚ) :
    Prop :=
  ∃ e ∈ (entries spansB bucketsB).head?, spansA.head?.map Span.offset = some e.1 ∧
    (bucketsA = [] ∨ e.2 ≠ 0 ∧ (indices 0 spansA).head? ≠ some e.1)

/-- **The counts are added index by index**, exactly if the first of them is not misplaced. -/
theorem addBuckets_pointwise_iff (negative : Bool) (hA : Agree spansA bucketsA)
    (hB : Agree spansB bucketsB) (hfit : FitInWindow spansA spansB)
    (hskip : ∀ i ∈ (indices 0 spansB).head?, skips schema threshold i = false) :
    (∃ spans' buckets', addBuckets schema threshold negative spansA bucketsA spansB bucketsB =
        some (spans', buckets') ∧
      Agree spans' buckets' ∧ (indices 0 spans').Pairwise (· < ·) ∧
      ∀ i, sumOver (· = i) (entries spans' buckets') = sumOver (· = i) (entries spansA bucketsA) +
        signed negative (sumOver (· = i) (entries spansB bucketsB))) ↔
    ¬Misplaced spansA bucketsA spansB bucketsB := by
  rw [← hB.map_fst_entries] at hskip
  unfold Misplaced
  rcases hes : entries spansB bucketsB with _ | ⟨⟨i, c⟩, es⟩
  · have heq : addBuckets schema threshold negative spansA bucketsA spansB bucketsB = _ :=
      (addBuckets_cases negative hA hB hfit rfl).1 (by simp [hes, Adding.kept])
    simpa using ⟨spansA, bucketsA, heq, hA, pairwise_indices 0 hA.offsets, fun _ => rfl⟩
  rw [hes] at hskip
  have hkept : Adding.kept (skips schema threshold) (entries spansB bucketsB) = (i, c) :: es := by
    rw [hes, Adding.kept, dropWhile_cons_of_neg (by simpa using hskip i rfl)]
  obtain ⟨hnone, hsome⟩ := (addBuckets_cases negative hA hB hfit hkept).2 i c es rfl
  simp only [head?_cons, Option.mem_some_iff, exists_eq_left']
  rcases hj : landing spansA i with _ | j
  · have hstuck := (landing_eq_none_iff hA).1 hj
    rw [hnone hstuck]
    simp [hstuck.1, hstuck.2]
  obtain ⟨spans', buckets', heq, hagree, hsum⟩ := hsome j hj
  have hplaced : ¬(spansA.head?.map Span.offset = some i ∧
      (bucketsA = [] ∨ c ≠ 0 ∧ (indices 0 spansA).head? ≠ some i)) ↔ c = 0 ∨ j = i := by
    by_cases hfirst : spansA.head?.map Span.offset = some i
    · have hne : bucketsA ≠ [] := fun h => by
        simp [(landing_eq_none_iff hA).2 ⟨h, hfirst⟩] at hj
      rw [landing, if_pos hfirst] at hj
      simp [hfirst, hne, hj, or_iff_not_imp_left]
    · rw [landing, if_neg hfirst, Option.some.injEq] at hj
      exact iff_of_true (fun h => hfirst h.1) (.inr hj.symm)
  rw [hplaced]
  constructor
  · rintro ⟨_, _, heq', -, -, hpoint⟩
    obtain ⟨rfl, rfl⟩ := Prod.mk.inj (Option.some.inj (heq.symm.trans heq'))
    have := signed_injective negative (add_left_cancel ((hsum _).symm.trans (hpoint i)))
    simp only [sumOver_cons, add_left_inj, decide_eq_true_eq] at this
    by_cases hij : j = i <;> simp_all
  · intro h
    refine ⟨spans', buckets', heq, hagree, pairwise_indices 0 hagree.offsets, fun k => ?_⟩
    rw [hsum, sumOver_cons, sumOver_cons]
    rcases h with rfl | rfl <;> simp

/-- A bucket between two others. -/
theorem addBuckets_pointwise_between :
    ∃ spans' buckets', addBuckets 0 0 false [⟨0, 1⟩, ⟨1, 1⟩] [1, 3] [⟨1, 1⟩] [2] =
        some (spans', buckets') ∧
      Agree spans' buckets' ∧ (indices 0 spans').Pairwise (· < ·) ∧
      ∀ i, sumOver (· = i) (entries spans' buckets') =
        sumOver (· = i) (entries [⟨0, 1⟩, ⟨1, 1⟩] [1, 3]) +
          signed false (sumOver (· = i) (entries [⟨1, 1⟩] [2])) :=
  (addBuckets_pointwise_iff false ⟨rfl, by simp⟩ ⟨rfl, by simp⟩
    ⟨0, by simp [IsWindow], ⟨by decide, by decide, by decide⟩, by decide⟩ (by decide +kernel)).2
      (by simp [Misplaced, entries, indices, indexRange])

/-- The count for index 0 is added to the bucket for index 5. -/
theorem addBuckets_misplaces :
    Agree [⟨0, 0⟩, ⟨5, 1⟩] [(1 : ℚ)] ∧ Agree [⟨0, 1⟩] [(2 : ℚ)] ∧ skips 0 0 0 = false ∧
      addBuckets 0 0 false [⟨0, 0⟩, ⟨5, 1⟩] [1] [⟨0, 1⟩] [2] = some ([⟨0, 0⟩, ⟨5, 1⟩], [3]) ∧
      entries [⟨0, 0⟩, ⟨5, 1⟩] [(3 : ℚ)] = [(5, 3)] :=
  ⟨⟨rfl, by simp⟩, ⟨rfl, by simp⟩, by decide +kernel⟩

end AddBuckets

end Prometheus.Histogram
