import Prometheus.Histogram.Compact

/-!
# Merging spans with small offsets

`compactBuckets` with `maxEmptyBuckets` above 0.

The first passes leave the populated buckets, and the empty ones between two neighbours that are at
most `maxEmptyBuckets` apart with all indices between them listed (`Bridged`, `TrimInv`). So each
span starts and ends with a populated bucket (`Trimmed.tight`), and a span that is at most
`maxEmptyBuckets` behind the one before it stands for two neighbours with an index between them that
is not listed (`Trimmed.filled_iff`).

The last pass merges these spans and inserts the buckets of the gap. It keeps in `iBucket` where
they go. After a merge the buckets of the merged span are not passed, so that `iBucket` lags behind:
the empty buckets of the next gap go before buckets that belong in front of it, and the last one of
these, which is populated, ends up in the gap (`mergeSmallOffsets_lagging`).

An offset that has wrapped around is too small. The sum of all offsets and the number of buckets is
the same before and after the pass (`mergeSmallOffsets_sum`), so that the result ends too early to
hold the last populated bucket.

Together: the result agrees and has the same populated buckets exactly if no gap is too long and at
most one is filled (`compactBuckets_populated_iff`).
-/

namespace Prometheus.Histogram

open List GoInt

attribute [local simp] absolute NonnegOffsets

/-! ### The empty buckets that are kept -/

/-- The index `k` is between neighbours that are at most `m` apart, and all indices between them are
in `is`. -/
def Bridged (m : ℕ) (is ps : List ℤ) (k : ℤ) : Prop :=
  ∃ i j, Neighbours ps i j ∧ i < k ∧ k < j ∧ j - i - 1 ≤ m ∧ ∀ l, i < l → l < j → l ∈ is

section Runs

variable {m : ℕ} {is js ps : List ℤ} {k : ℤ}

/-- With an index, all others between the same neighbours are bridged. -/
lemma Bridged.all (h : Bridged m is ps k) : ∃ i j, Neighbours ps i j ∧ i < k ∧ k < j ∧
    j - i - 1 ≤ m ∧ ∀ l, i < l → l < j → Bridged m is ps l := by
  obtain ⟨i, j, hij, hik, hkj, hle, hall⟩ := h
  exact ⟨i, j, hij, hik, hkj, hle, fun l hil hlj => ⟨i, j, hij, hil, hlj, hle, hall⟩⟩

/-- An empty run at the start or the end of a span, or a long one, is not bridged. -/
lemma not_bridged {x : ℤ} {n : ℕ} (hps : ∀ i ∈ ps, i ∈ js) (hjs : ∀ i, Bridged m is ps i → i ∈ js)
    (hempty : ∀ i ∈ ps, i < x ∨ x + n ≤ i) (hwhy : x - 1 ∉ js ∨ x + n ∉ js ∨ m < n) (hle : x ≤ k)
    (hlt : k < x + n) : ¬Bridged m is ps k := by
  intro h
  obtain ⟨i, j, hij, hik, hkj, hgap, hall⟩ := h.all
  have hi := hempty i hij.1
  have hj := hempty j hij.2.1
  -- What is from one neighbour to the other is listed, and that includes the run.
  have hmem : ∀ l, i ≤ l → l ≤ j → l ∈ js := by
    intro l hil hlj
    rcases hil.eq_or_lt with rfl | hil
    · exact hps _ hij.1
    rcases hlj.eq_or_lt with rfl | hlj
    · exact hps _ hij.2.1
    · exact hjs l (hall l hil hlj)
  rcases hwhy with hfirst | hlast | hlong
  · exact hfirst (hmem _ (by omega) (by omega))
  · exact hlast (hmem _ (by omega) (by omega))
  · omega

end Runs

variable {C : Type} [AddCommGroup C] [DecidableEq C] {m : ℕ} {d : Bool}

/-! ### Populated places -/

section Places

variable {spans : List Span} {counts : List C} {p q : ℕ} {i j : ℤ} {x : C}

omit [AddCommGroup C] [DecidableEq C] in
lemma getElem?_entries (hi : (indices 0 spans)[p]? = some i) (hx : counts[p]? = some x) :
    (i, x) ∈ entries spans counts := by
  refine mem_of_getElem? (i := p) ?_
  rw [entries, getElem?_zip_eq_some]
  exact ⟨hi, hx⟩

/-- The populated indices are those at a place with a count that is not 0. -/
lemma mem_populated_iff : i ∈ (populated (entries spans counts)).map Prod.fst ↔
    ∃ (p : ℕ) (x : C), (indices 0 spans)[p]? = some i ∧ counts[p]? = some x ∧ x ≠ 0 := by
  simp only [mem_map, populated, mem_filter, decide_eq_true_eq, Prod.exists, exists_and_right,
    exists_eq_right]
  constructor
  · rintro ⟨x, hmem, hx⟩
    obtain ⟨p, hp⟩ := mem_iff_getElem?.1 hmem
    rw [entries, getElem?_zip_eq_some] at hp
    exact ⟨p, x, hp.1, hp.2, hx⟩
  · rintro ⟨p, x, hi, hx, hne⟩
    exact ⟨x, getElem?_entries hi hx, hne⟩

lemma getElem?_indices_lt (h : NonnegOffsets spans) (hp : (indices 0 spans)[p]? = some i)
    (hq : (indices 0 spans)[q]? = some j) (hpq : p < q) : i < j := by
  obtain ⟨hp', rfl⟩ := List.getElem?_eq_some_iff.1 hp
  obtain ⟨hq', rfl⟩ := List.getElem?_eq_some_iff.1 hq
  exact pairwise_iff_getElem.1 (pairwise_indices 0 h) p q hp' hq' hpq

end Places

/-! ### The first passes -/

/-- What the cursor has passed are populated buckets and bridged ones, and no bridged one has been
cut out. In the middle of a span, the bucket before the cursor or the one at it is populated. -/
structure TrimInv (m : ℕ) (d : Bool) (is ps : List ℤ) (c : Cursor C) : Prop where
  listed : ∀ k ∈ indices 0 (c.spansDone ++ c.spans), k ∈ is
  bridged : ∀ k, Bridged m is ps k → k ∈ indices 0 (c.spansDone ++ c.spans)
  needed : ∀ k ∈ (indices 0 (c.spansDone ++ c.spans)).take c.bucketsDone.length,
    k ∈ ps ∨ Bridged m is ps k
  last : 0 < c.posInSpan → (∃ x ≠ 0, (absolute d 0 c.bucketsDone).getLast? = some x) ∨
    ∀ x ∈ (absolute d c.currentBucketAbsolute c.buckets).head?, x ≠ 0

section Trim

variable {spans₀ : List Span} {es : List (ℤ × C)} {is : List ℤ} {c c' : Cursor C} {s : Span}
  {ss : List Span} {as bs : List C}

/-- The counts at the cursor. -/
def Cursor.counts (d : Bool) (c : Cursor C) : List C :=
  absolute d 0 c.bucketsDone ++ absolute d c.currentBucketAbsolute c.buckets

omit [DecidableEq C] in
/-- The counts from the cursor on. -/
lemma Cursor.getElem?_counts (c : Cursor C) (t : ℕ) : (c.counts d)[c.bucketsDone.length + t]? =
    (absolute d c.currentBucketAbsolute c.buckets)[t]? := by
  rw [counts, getElem?_append_right (by simp), length_absolute, Nat.add_sub_cancel_left]

section AtCursor

variable (h : CompactInv m d spans₀ es c)

include h

lemma CompactInv.mem_iff {i : ℤ} : i ∈ es.map Prod.fst ↔ ∃ (p : ℕ) (x : C),
    (indices 0 (c.spansDone ++ c.spans))[p]? = some i ∧ (c.counts d)[p]? = some x ∧ x ≠ 0 := by
  rw [← h.populated]
  exact mem_populated_iff

lemma CompactInv.subset : ∀ i ∈ es.map Prod.fst, i ∈ indices 0 (c.spansDone ++ c.spans) := by
  intro i hi
  obtain ⟨p, x, hp, -⟩ := h.mem_iff.1 hi
  exact mem_of_getElem? hp

/-- The index at a place from the cursor on. -/
lemma CompactInv.index (hspans : c.spans = s :: ss) {t : ℕ} (ht : c.posInSpan + t < s.length) :
    (indices 0 (c.spansDone ++ c.spans))[c.bucketsDone.length + t]? =
      some (endIdx 0 c.spansDone + s.offset + c.posInSpan + t) := by
  rw [hspans, ← h.length_done, add_assoc, getElem?_indices 0 ht, Nat.cast_add, ← add_assoc]

/-- No populated index is in a run of empty buckets from the cursor on. -/
lemma CompactInv.outside (h₀ : NonnegOffsets spans₀) (hspans : c.spans = s :: ss) {n : ℕ}
    (hn : c.posInSpan + n ≤ s.length)
    (hempty : ∀ t < n, ∀ x ∈ (absolute d c.currentBucketAbsolute c.buckets)[t]?, x = 0) :
    ∀ i ∈ es.map Prod.fst, i < endIdx 0 c.spansDone + s.offset + c.posInSpan ∨
      endIdx 0 c.spansDone + s.offset + c.posInSpan + n ≤ i := by
  intro i hi
  by_contra hin
  obtain ⟨p, x, hp, hx, hne⟩ := h.mem_iff.1 hi
  -- The index is at the place in the run that it says.
  obtain ⟨t, rfl⟩ : ∃ t : ℕ, i = endIdx 0 c.spansDone + s.offset + c.posInSpan + t :=
    ⟨(i - (endIdx 0 c.spansDone + s.offset + c.posInSpan)).toNat, by omega⟩
  have ht : t < n := by omega
  have hidx := h.index hspans (t := t) (by omega)
  have hoff := (h.clean h₀).nonnegOffsets
  obtain rfl : p = c.bucketsDone.length + t := by
    rcases lt_trichotomy p (c.bucketsDone.length + t) with hlt | heq | hgt
    · exact absurd (getElem?_indices_lt hoff hp hidx hlt) (lt_irrefl _)
    · exact heq
    · exact absurd (getElem?_indices_lt hoff hidx hp hgt) (lt_irrefl _)
  rw [c.getElem?_counts] at hx
  exact hne (hempty t ht x hx)

end AtCursor

lemma TrimInv.cut (h₀ : NonnegOffsets spans₀) (h : CompactInv m d spans₀ es c)
    (ht : TrimInv m d is (es.map Prod.fst) c) (hc : c.Cuts m d c' s ss as bs) :
    TrimInv m d is (es.map Prod.fst) c' := by
  obtain ⟨ps, qs, hold, hnew, hps⟩ := h.cut_indices hc
  obtain ⟨hbd, hzero⟩ : c'.bucketsDone = c.bucketsDone ∧ c'.posInSpan = 0 := by
    obtain ⟨bs', abs, rfl, -⟩ := hc.eq
    obtain ⟨hbd, -, -, hzero, -⟩ := cutSpan_rest id
      { c with buckets := bs', currentBucketAbsolute := abs } s ss as.length
    exact ⟨hbd, hzero⟩
  have hempty := h.outside h₀ hc.spans hc.room fun t ht x hx => by
    rw [hc.buckets, absolute_append_of_zero hc.ne_nil hc.empty,
      getElem?_append_left (by simpa using ht)] at hx
    exact hc.empty x (mem_of_getElem? hx)
  have hclean := h.clean h₀
  have hwhy : endIdx 0 c.spansDone + s.offset + c.posInSpan - 1 ∉
        indices 0 (c.spansDone ++ c.spans) ∨
      endIdx 0 c.spansDone + s.offset + c.posInSpan + as.length ∉
        indices 0 (c.spansDone ++ c.spans) ∨ m < as.length := by
    rw [hc.spans] at hclean ⊢
    rcases hc.why with hpos | hend | hlong
    · rw [hpos, Nat.cast_zero, add_zero]
      exact .inl hclean.notMem_before
    · refine .inr (.inl ?_)
      have hcast : endIdx 0 c.spansDone + s.offset + c.posInSpan + as.length =
          endIdx 0 c.spansDone + s.offset + s.length := by omega
      rw [hcast]
      exact hclean.notMem_after
    · exact .inr (.inr hlong)
  refine ⟨fun k hk => ht.listed k ?_, fun k hk => ?_, ?_, fun hpos => absurd hzero hpos.ne'⟩
  · rw [hnew, mem_append] at hk
    rw [hold, mem_append, mem_append]
    exact hk.imp id .inr
  · have hmem := ht.bridged k hk
    rw [hold, mem_append, mem_append, mem_indexRange] at hmem
    rw [hnew, mem_append]
    rcases hmem with hmem | ⟨hle, hlt⟩ | hmem
    · exact .inl hmem
    · exact absurd hk (not_bridged h.subset ht.bridged hempty hwhy hle hlt)
    · exact .inr hmem
  · have hneeded := ht.needed
    rw [hold, take_left' hps] at hneeded
    rwa [hnew, hbd, take_left' hps]

/-- A few empty buckets in the middle of a span are bridged. -/
lemma TrimInv.bridged_of_keeps (h₀ : NonnegOffsets spans₀) (h : CompactInv m d spans₀ es c)
    (ht : TrimInv m d is (es.map Prod.fst) c) (hk : c.Keeps m d c' as)
    (hzero : ∀ x ∈ absolute d c.currentBucketAbsolute as, x = 0) (hle : as.length ≤ m)
    (hpos : 0 < c.posInSpan) (hpos' : c'.posInSpan = c.posInSpan + as.length)
    (hdone : c'.spansDone = c.spansDone)
    (hnext : ∀ x ∈ (absolute d c'.currentBucketAbsolute c'.buckets).head?, x ≠ 0) {t : ℕ}
    (htlt : t < as.length) {k : ℤ}
    (hidx : (indices 0 (c.spansDone ++ c.spans))[c.bucketsDone.length + t]? = some k) :
    Bridged m is (es.map Prod.fst) k := by
  have h' := h.keep hk
  obtain ⟨s, ss, hspans', hlt⟩ := hk.in_span.resolve_left (by omega)
  have hspans : c.spans = s :: ss := by
    have := hk.spans
    rw [hdone] at this
    rw [← append_cancel_left this, hspans']
  have hcounts : absolute d c.currentBucketAbsolute c.buckets =
      absolute d c.currentBucketAbsolute as ++ absolute d c'.currentBucketAbsolute c'.buckets := by
    rw [hk.buckets, hk.counts]
  set a := endIdx 0 c.spansDone + s.offset + c.posInSpan with ha
  have hindex : ∀ u : ℕ, u ≤ as.length →
      (indices 0 (c.spansDone ++ c.spans))[c.bucketsDone.length + u]? = some (a + u) :=
    fun u hu => h.index hspans (by omega)
  obtain rfl : a + t = k := Option.some_injective _ ((hindex t htlt.le).symm.trans hidx)
  -- The bucket before the run.
  have hbefore : a - 1 ∈ es.map Prod.fst := by
    obtain ⟨x, hx, hlast⟩ := (ht.last hpos).resolve_right fun hhead => by
      obtain ⟨b, bs, rfl⟩ := exists_cons_of_ne_nil hk.ne_nil
      rw [hcounts] at hhead
      exact hhead _ rfl (hzero _ mem_cons_self)
    have hlen := h.length_done
    refine h.mem_iff.2 ⟨c.bucketsDone.length - 1, x, ?_, ?_, hx⟩
    · have hplace : c.bucketsDone.length - 1 = countSpans c.spansDone + (c.posInSpan - 1) := by
        omega
      rw [hspans, hplace, getElem?_indices 0 (by omega), ha]
      congr 1
      omega
    · rw [Cursor.counts, getElem?_append_left (by simp; omega), ← hlast, getLast?_eq_getElem?,
        length_absolute]
  -- The bucket behind the run.
  have hafter : a + as.length ∈ es.map Prod.fst := by
    have hne : c'.buckets ≠ [] := fun hnil => by
      have hlen := h'.length_eq
      have hlen' := h'.length_done
      rw [hspans', hnil] at hlen
      simp at hlen
      omega
    obtain ⟨b, bs, hb⟩ := exists_cons_of_ne_nil hne
    rw [hb] at hnext
    refine h.mem_iff.2 ⟨c.bucketsDone.length + as.length, _, hindex _ (le_refl _), ?_, hnext _ rfl⟩
    rw [c.getElem?_counts, hcounts, getElem?_append_right (by simp),
      length_absolute, Nat.sub_self, hb]
    rfl
  have houtside := h.outside h₀ hspans (n := as.length) (by omega) fun u hu x hx => by
    rw [hcounts, getElem?_append_left (by simpa using hu)] at hx
    exact hzero x (mem_of_getElem? hx)
  refine ⟨a - 1, a + as.length, ⟨hbefore, hafter, by omega, fun i hi => ?_⟩, by omega, by omega,
    by omega, fun l hl hl' => ?_⟩
  · have := houtside i hi
    omega
  · obtain ⟨u, rfl⟩ : ∃ u : ℕ, l = a + u := ⟨(l - a).toNat, by omega⟩
    exact ht.listed _ (mem_of_getElem? (hindex u (by omega)))

lemma TrimInv.keep (h₀ : NonnegOffsets spans₀) (h : CompactInv m d spans₀ es c)
    (ht : TrimInv m d is (es.map Prod.fst) c) (hk : c.Keeps m d c' as) :
    TrimInv m d is (es.map Prod.fst) c' := by
  have hcur := h.counts (by simp [hk.buckets, hk.ne_nil]) as
  refine ⟨hk.spans ▸ ht.listed, hk.spans ▸ ht.bridged, fun k hmem => ?_, fun _ => ?_⟩
  · rw [hk.spans, hk.bucketsDone, length_append, take_add, mem_append] at hmem
    rcases hmem with hmem | hmem
    · exact ht.needed k hmem
    obtain ⟨t, hidx⟩ := mem_iff_getElem?.1 hmem
    have htlt : t < as.length := by
      by_contra hge
      rw [getElem?_eq_none (by simp; omega)] at hidx
      simp at hidx
    rw [getElem?_take_of_lt htlt, getElem?_drop] at hidx
    rcases hk.why with ⟨x, hx, heq⟩ | ⟨hzero, hle, hpos, hpos', hdone, hnext⟩
    · refine .inl (h.mem_iff.2 ⟨_, x, hidx, ?_, hx⟩)
      have hone : as.length = 1 := by simpa using congrArg length heq
      rw [c.getElem?_counts, hk.buckets, hk.counts, heq, show t = 0 by omega]
      rfl
    · exact .inr (ht.bridged_of_keeps h₀ h hk hzero hle hpos hpos' hdone hnext htlt hidx)
  · rcases hk.why with ⟨x, hx, heq⟩ | ⟨-, -, -, -, -, hnext⟩
    · exact .inl ⟨x, hx, by rw [hk.bucketsDone, hcur, heq]; simp⟩
    · exact .inr hnext

end Trim

/-! ### The spans before the last pass -/

/-- The spans of the populated indices `ps` and the bridged ones. -/
structure Trimmed (m : ℕ) (is ps : List ℤ) (spans : List Span) : Prop extends Clean spans where
  mem_iff : ∀ k, k ∈ indices 0 spans ↔ k ∈ ps ∨ Bridged m is ps k
  listed : ∀ k ∈ ps, k ∈ is

/-- The neighbours `i` and `j` are at most `m` apart, and there is an index between them that is not
in `is`: the buckets between them are inserted. -/
def Filled (m : ℕ) (is ps : List ℤ) (i j : ℤ) : Prop :=
  Neighbours ps i j ∧ j - i - 1 ≤ m ∧ ∃ k ∈ indexRange (i + 1) (j - i - 1).toNat, k ∉ is

instance (m : ℕ) (is ps : List ℤ) (i j : ℤ) : Decidable (Filled m is ps i j) :=
  inferInstanceAs (Decidable (_ ∧ _ ∧ _))

/-- At most one gap is filled. -/
def FillsOnce (m : ℕ) (is ps : List ℤ) : Prop :=
  ∀ i ∈ ps, ∀ j ∈ ps, ∀ i' ∈ ps, ∀ j' ∈ ps,
    Filled m is ps i j → Filled m is ps i' j' → i = i'

instance (m : ℕ) (is ps : List ℤ) : Decidable (FillsOnce m is ps) :=
  inferInstanceAs (Decidable (∀ i ∈ ps, _))

namespace Trimmed

variable {is ps : List ℤ} {spans : List Span} {i j : ℤ} (h : Trimmed m is ps spans)

include h

/-- Both ends of a span are populated: a bridged index has an index on either side of it. -/
lemma tight : Clean.Tight ps spans where
  toClean := h.toClean
  subset := fun k hk => (h.mem_iff k).2 (.inl hk)
  first := by
    rintro as s bs rfl
    have hs := h.pos s (by simp)
    refine ((h.mem_iff _).1 (mem_indices_span (le_refl _) (by omega) bs)).resolve_right fun hb => ?_
    refine h.toClean.notMem_before ((h.mem_iff _).2 ?_)
    obtain ⟨i, j, hij, hi, hj, -, hall⟩ := hb.all
    rcases (show i ≤ endIdx 0 as + s.offset - 1 by omega).eq_or_lt with heq | hlt
    · exact .inl (heq ▸ hij.1)
    · exact .inr (hall _ hlt (by omega))
  last := by
    rintro as s bs rfl
    have hs := h.pos s (by simp)
    have hend : endIdx 0 (as ++ [s]) = endIdx 0 as + s.offset + s.length := by
      rw [endIdx_append]
      rfl
    rw [hend]
    refine ((h.mem_iff _).1 (mem_indices_span (by omega) (by omega) bs)).resolve_right fun hb => ?_
    refine h.toClean.notMem_after ((h.mem_iff _).2 ?_)
    obtain ⟨i, j, hij, hi, hj, -, hall⟩ := hb.all
    rcases (show endIdx 0 as + s.offset + s.length ≤ j by omega).eq_or_lt with heq | hlt
    · exact .inl (heq ▸ hij.2.1)
    · exact .inr (hall _ (by omega) hlt)

/-- The gaps that are filled are those before spans with a small offset. -/
lemma filled_iff : Filled m is ps i j ↔ ∃ as s bs, spans = as ++ s :: bs ∧ as ≠ [] ∧
    endIdx 0 as - 1 = i ∧ endIdx 0 as + s.offset = j ∧ s.offset ≤ (m : ℤ) := by
  constructor
  · rintro ⟨hij, hle, k, hk, hkis⟩
    rw [mem_indexRange] at hk
    have hk' : k ∉ indices 0 spans := fun hmem => by
      rcases (h.mem_iff k).1 hmem with hps | hb
      · exact hkis (h.listed k hps)
      · obtain ⟨i', j', -, hik, hkj, -, hall⟩ := hb
        exact hkis (hall k hik hkj)
    obtain ⟨as, s, bs, hspans, has, rfl, rfl⟩ := h.tight.exists_span hij
      ⟨k, by omega, by omega, hk'⟩
    exact ⟨as, s, bs, hspans, has, rfl, rfl, by omega⟩
  · rintro ⟨as, s, bs, rfl, has, rfl, rfl, hle⟩
    have hij := h.tight.neighbours rfl has
    refine ⟨hij, by omega, ?_⟩
    by_contra hall
    simp only [mem_indexRange, not_exists, not_and, not_not] at hall
    have hgap := hij.2.2.1
    have hb : ∀ l, endIdx 0 as - 1 < l → l < endIdx 0 as + s.offset → l ∈ is := fun l hl hl' =>
      hall l ⟨by omega, by omega⟩
    -- The index before the span would be bridged.
    refine h.toClean.notMem_before ((h.mem_iff _).2 (.inr ⟨_, _, hij, ?_, by omega, by omega, hb⟩))
    have := h.gap s (by
      obtain ⟨t, ts, rfl⟩ := exists_cons_of_ne_nil has
      simp)
    omega

lemma pairwise_far (honce : FillsOnce m is ps) (as : List Span) {bs : List Span} (has : as ≠ [])
    (hspans : spans = as ++ bs) : bs.Pairwise fun s t : Span => m < s.offset ∨ m < t.offset := by
  induction bs generalizing as with
  | nil => exact Pairwise.nil
  | cons s bs ih =>
    refine pairwise_cons.2 ⟨fun t ht => ?_, ih (as ++ [s]) (by simp) (by simp [hspans])⟩
    by_contra hnear
    simp only [not_or, not_lt] at hnear
    obtain ⟨cs, ds, rfl⟩ := append_of_mem ht
    have hs := h.filled_iff.2 ⟨as, s, _, hspans, has, rfl, rfl, hnear.1⟩
    have ht := h.filled_iff.2 ⟨as ++ s :: cs, t, ds, by simp [hspans], by simp, rfl, rfl, hnear.2⟩
    have heq := honce _ hs.1.1 _ hs.1.2.1 _ ht.1.1 _ ht.1.2.1 hs ht
    -- The second gap is behind the first span.
    have hgap : ∀ u ∈ s :: cs, 0 < u.offset := fun u hu => h.gap u (by
      obtain ⟨v, vs, rfl⟩ := exists_cons_of_ne_nil has
      rw [hspans]
      exact mem_append_right vs (mem_append_left (t :: ds) hu))
    have hoff := hgap s mem_cons_self
    have hle := le_endIdx (endIdx 0 as + s.offset + s.length)
      fun u (hu : u ∈ cs) => (hgap u (mem_cons_of_mem _ hu)).le
    rw [endIdx_append, endIdx] at heq
    omega

/-- **Gaps that are filled** are spans that are merged. -/
lemma fillsOnce_iff : FillsOnce m is ps ↔
    spans.tail.Pairwise fun s t : Span => m < s.offset ∨ m < t.offset := by
  constructor
  · intro honce
    cases spans with
    | nil => exact Pairwise.nil
    | cons s ss => exact h.pairwise_far honce [s] (by simp) rfl
  · intro hfar i _ j _ i' _ j' _ hij hij'
    obtain ⟨as, s, bs, hspans, has, rfl, -, hs⟩ := h.filled_iff.1 hij
    obtain ⟨as', s', bs', hspans', has', rfl, -, hs'⟩ := h.filled_iff.1 hij'
    -- Of two different places, one comes first.
    have hpair : ∀ {as s} as' {s' bs'}, as ≠ [] → spans = as ++ s :: (as' ++ s' :: bs') →
        (m : ℤ) < s.offset ∨ (m : ℤ) < s'.offset := by
      intro as s as' s' bs' has heq
      obtain ⟨u, us, rfl⟩ := exists_cons_of_ne_nil has
      rw [heq] at hfar
      have := (pairwise_append.1 (show (us ++ s :: (as' ++ s' :: bs')).Pairwise _ from hfar)).2.1
      exact rel_of_pairwise_cons this (by simp)
    rw [hspans] at hspans'
    rcases append_eq_append_iff.1 hspans' with ⟨cs, rfl, heq⟩ | ⟨cs, rfl, heq⟩
    · cases cs with
      | nil => simp
      | cons c cs =>
        obtain ⟨rfl, rfl⟩ := cons.inj heq
        have := hpair _ has hspans
        omega
    · cases cs with
      | nil => simp
      | cons c cs =>
        obtain ⟨rfl, rfl⟩ := cons.inj heq
        have := hpair cs has' (hspans.trans (append_assoc _ _ _))
        omega

end Trimmed

/-! ### The last pass -/

section LastPass

variable {done ss : List Span} {cur s : Span} {i k : ℕ} {o : ℤ} {abs : C} {B N : List C}
  {r : List C × List Span}

omit [DecidableEq C] in
lemma insertEmpty_length (h : insertEmpty d o i abs B = some N) (hi : i ≤ B.length) :
    (N.length : ℤ) = B.length + o ∧ 0 ≤ i + o := by
  simp only [insertEmpty] at h
  split_ifs at h with hneg hdelta hroom
  all_goals
    obtain rfl := Option.some_injective _ h
    simp only [length_append, length_take, length_modify, length_set, length_replicate, length_drop]
    omega

omit [DecidableEq C] in
/-- `k` empty buckets are inserted, after the count `abs`. In deltas they are only empty if that is
the count at their place; those behind them are as they were. -/
lemma absolute_inserted (hk : 0 < k) (p abs : C) (bs : List C) :
    absolute d p (if d then ((replicate k 0 ++ bs).set 0 (-abs)).modify k (· + abs)
      else replicate k 0 ++ bs) = replicate k (if d then p - abs else 0) ++ absolute d p bs := by
  cases d with
  | false => simp
  | true =>
    have hrun : ∀ k q, absolute true q ((replicate k 0 ++ bs).modify k (· + abs)) =
        replicate k q ++ absolute true (q + abs) bs := by
      intro k
      induction k with
      | zero => intro q; cases bs <;> simp [add_comm, add_left_comm]
      | succ k ih => intro q; simpa [replicate_succ] using ih q
    obtain ⟨k, rfl⟩ := Nat.exists_eq_succ_of_ne_zero hk.ne'
    simp [replicate_succ, hrun, sub_eq_add_neg]

omit [DecidableEq C] in
/-- The counts behind a place are those after the count before it. -/
lemma absolute_take_append (d : Bool) (B : List C) (i : ℕ) (bs : List C) :
    absolute d 0 (B.take i ++ bs) = absolute d 0 (B.take i) ++ absolute d (B.take i).sum bs := by
  cases d with
  | false => simp
  | true => simp [absolute_append_true]

omit [DecidableEq C] in
/-- **An insertion** of buckets, in terms of counts. -/
lemma insertEmpty_spec (hk : 0 < k) (hi : i ≤ B.length) (d : Bool) (abs : C) :
    ∃ N, insertEmpty d k i abs B = some N ∧ absolute d 0 N = (absolute d 0 B).take i ++
      (replicate k (if d then (B.take i).sum - abs else 0) ++ (absolute d 0 B).drop i) := by
  refine ⟨B.take i ++ if d then ((replicate k 0 ++ B.drop i).set 0 (-abs)).modify k (· + abs)
    else replicate k 0 ++ B.drop i, ?_, ?_⟩
  · have hneg : ¬(i : ℤ) + k < 0 := by omega
    cases d <;> simp [insertEmpty, hneg, hk]
  · have hB : absolute d 0 (B.take i) ++ absolute d (B.take i).sum (B.drop i) = absolute d 0 B := by
      rw [← absolute_take_append, take_append_drop]
    have hdrop : absolute d (B.take i).sum (B.drop i) = (absolute d 0 B).drop i := by
      rw [← hB, drop_left' (by simp [hi])]
    rw [absolute_take_append, absolute_inserted hk, absolute_take, hdrop]

omit [DecidableEq C] in
/-- Spans that are far apart are not merged. -/
lemma mergeSmallOffsets_far (hfar : ∀ s ∈ ss, (m : ℤ) < s.offset) :
    mergeSmallOffsets m d done cur ss i abs B = some (B, done ++ cur :: ss) := by
  induction ss generalizing done cur i abs with
  | nil => rfl
  | cons s ss ih =>
    rw [forall_mem_cons] at hfar
    rw [mergeSmallOffsets, if_pos hfar.1, ih hfar.2]
    simp

omit [DecidableEq C] in
/-- A turn that merges. -/
lemma mergeSmallOffsets_near (hnear : ¬s.offset > m)
    (h : mergeSmallOffsets m d done cur (s :: ss) i abs B = some r) :
    ∃ N abs', insertEmpty d s.offset i abs B = some N ∧
      mergeSmallOffsets m d done
        { cur with length := uint32 (cur.length + (s.offset + s.length)) } ss
        (i + s.offset).toNat abs' N = some r := by
  rw [mergeSmallOffsets, if_neg hnear] at h
  simp only [Option.bind_eq_bind, Option.bind_eq_some_iff] at h
  obtain ⟨N, hN, abs', -, h⟩ := h
  exact ⟨N, abs', hN, h⟩

omit [DecidableEq C] in
/-- **What is merged is inserted**: the offsets and the number of buckets have the same sum. -/
lemma mergeSmallOffsets_sum (h : mergeSmallOffsets m d done cur ss i abs B = some r)
    (hi : i + countSpans ss ≤ B.length) :
    (r.2.map Span.offset).sum + r.1.length =
      ((done ++ cur :: ss).map Span.offset).sum + B.length := by
  induction ss generalizing done cur i abs B with
  | nil =>
    obtain rfl : (B, done ++ [cur]) = r := by simpa [mergeSmallOffsets] using h
    rfl
  | cons s ss ih =>
    rw [countSpans_cons] at hi
    by_cases hfar : s.offset > m
    · rw [mergeSmallOffsets, if_pos hfar] at h
      rw [ih h (by omega)]
      simp
    obtain ⟨N, abs', hN, h⟩ := mergeSmallOffsets_near hfar h
    obtain ⟨hlen, hle⟩ := insertEmpty_length hN (by omega)
    rw [ih h (by omega)]
    simp only [map_append, map_cons, sum_append, sum_cons, hlen]
    ring

omit [DecidableEq C] in
/-- Too few places in the spans are never made up for. -/
lemma mergeSmallOffsets_short (h : mergeSmallOffsets m d done cur ss i abs B = some r)
    (hi : i + countSpans ss ≤ B.length) (hgap : ∀ s ∈ ss, 0 ≤ s.offset)
    (hshort : countSpans (done ++ cur :: ss) < B.length) : countSpans r.2 < r.1.length := by
  induction ss generalizing done cur i abs B with
  | nil =>
    obtain rfl : (B, done ++ [cur]) = r := by simpa [mergeSmallOffsets] using h
    exact hshort
  | cons s ss ih =>
    rw [countSpans_cons] at hi
    rw [forall_mem_cons] at hgap
    by_cases hfar : s.offset > m
    · rw [mergeSmallOffsets, if_pos hfar] at h
      exact ih h (by omega) hgap.2 (by simpa using hshort)
    obtain ⟨N, abs', hN, h⟩ := mergeSmallOffsets_near hfar h
    obtain ⟨hlen, hle⟩ := insertEmpty_length hN (by omega)
    refine ih h (by omega) hgap.2 ?_
    obtain ⟨o, ho⟩ := Int.eq_ofNat_of_zero_le hgap.1
    have hwrap := uint32_le (cur.length + (o + s.length))
    simp only [countSpans_append, countSpans_cons, ho] at hshort hlen ⊢
    push_cast at hwrap
    omega

end LastPass

/-! ### One merge -/

section Once

variable {done ss : List Span} {cur : Span} {i : ℕ} {abs : C} {B : List C}

/-- **At most one merge**: the buckets are inserted at the right place. -/
lemma mergeSmallOffsets_spec (hclean : Clean (done ++ cur :: ss))
    (hlen : countSpans (done ++ cur :: ss) = B.length) (hshort : B.length ≤ 2 ^ 31)
    (hint : ∀ s ∈ ss, IsInt32 s.offset)
    (hone : ss.Pairwise fun s t : Span => m < s.offset ∨ m < t.offset)
    (hi : i = countSpans done + cur.length) (habs : d = true → abs = (B.take i).sum) :
    ∃ r, mergeSmallOffsets m d done cur ss i abs B = some r ∧ Agree r.2 r.1 ∧
      populated (entries r.2 (absolute d 0 r.1)) =
        populated (entries (done ++ cur :: ss) (absolute d 0 B)) := by
  induction ss generalizing done cur i abs with
  | nil => exact ⟨_, rfl, ⟨hlen, hclean.nonnegOffsets⟩, rfl⟩
  | cons s ss ih =>
    obtain ⟨hs, hss⟩ := pairwise_cons.1 hone
    rw [forall_mem_cons] at hint
    rw [mergeSmallOffsets]
    by_cases hfar : s.offset > m
    · have hassoc : done ++ cur :: s :: ss = done ++ [cur] ++ s :: ss := by simp
      rw [hassoc] at hclean hlen ⊢
      rw [if_pos hfar]
      refine ih hclean hlen hint.2 hss (by simp [hi]) ?_
      rintro rfl
      simp [habs rfl, take_add]
    have hgap : 0 < s.offset := hclean.gap s (by cases done <;> simp)
    have hpos := hclean.pos s (by simp)
    obtain ⟨k, hk⟩ := Int.eq_ofNat_of_zero_le hgap.le
    have hle : i + s.length ≤ B.length := by
      simp only [countSpans_append, countSpans_cons] at hlen
      omega
    obtain ⟨N, hN, hcounts⟩ := insertEmpty_spec (k := k) (i := i) (B := B)
      (by omega) (by omega) d abs
    have hzero : (if d then (B.take i).sum - abs else 0) = 0 := by
      split_ifs with hd
      · rw [habs hd, sub_self]
      · rfl
    rw [hzero] at hcounts
    obtain ⟨hNlen, -⟩ := insertEmpty_length hN (by omega)
    -- The length of the merged span is below 2 ^ 32.
    have hwrap : uint32 (cur.length + (s.offset + s.length)) = cur.length + (k + s.length) := by
      have hkint := hint.1
      simp only [hk, IsInt32] at hkint
      simp only [countSpans_append, countSpans_cons] at hlen
      rw [hk]
      exact_mod_cast uint32_eq_self (x := cur.length + (k + s.length)) (by omega)
    have hidx : (i + s.offset).toNat = i + k := by omega
    obtain ⟨abs', habs'⟩ : ∃ abs', N[i + k]? = some abs' := ⟨_, getElem?_eq_getElem (by omega)⟩
    -- The spans that come after are not merged.
    refine ⟨(N, done ++ ⟨cur.offset, cur.length + (k + s.length)⟩ :: ss), ?_, ⟨?_, ?_⟩, ?_⟩
    · rw [if_neg hfar, hwrap, hidx]
      simp only [hk, hN, habs', Option.bind_eq_bind, Option.bind_some]
      exact mergeSmallOffsets_far fun t ht => (hs t ht).resolve_left hfar
    · simp only [countSpans_append, countSpans_cons] at hlen ⊢
      omega
    · have hoffsets := hclean.nonnegOffsets
      cases done <;> simp [or_imp, forall_and] at hoffsets ⊢ <;> tauto
    · obtain ⟨ps, qs, hnew, hold, hps⟩ := indices_gap (m := cur.length) (n := k)
        (s := { cur with length := cur.length + (k + s.length) }) done ss (by simp only; omega)
      have hspan : (⟨k, cur.length + (k + s.length) - cur.length - k⟩ : Span) = s := by
        ext <;> simp [hk]
      simp only [hspan] at hold
      have hplace : ps.length = ((absolute d 0 B).take i).length := by
        simp
        omega
      rw [entries, entries, hnew, hold, hcounts, populated_zip_cut hplace (by simp) (by simp),
        take_append_drop]

end Once

/-! ### Two merges -/

section Lag

variable {done ss : List Span} {cur : Span} {i : ℕ} {abs : C} {B : List C} {r : List C × List Span}

/-- The counts of spans, each of which ends with a populated bucket. -/
def EndsPopulated : List C → List Span → Prop
  | _, [] => True
  | cs, s :: ss => (∃ x ≠ 0, cs[s.length - 1]? = some x) ∧ EndsPopulated (cs.drop s.length) ss

/-- A count has ended up at an index that is not in the spans. -/
def Misplaces (d : Bool) (spans : List Span) (r : List C × List Span) : Prop :=
  ∃ k x, k ∉ indices 0 spans ∧ x ≠ 0 ∧ (k, x) ∈ entries r.2 (absolute d 0 r.1)

/-- With the gap before it, a span is part of the one it is merged with. -/
lemma indices_merged_subset (done ss : List Span) (cur s : Span) {k n : ℕ} (hk : s.offset = k)
    (hn : n = cur.length + (k + s.length)) {j : ℤ}
    (hj : j ∈ indices 0 (done ++ cur :: s :: ss)) :
    j ∈ indices 0 (done ++ { cur with length := n } :: ss) := by
  obtain ⟨ps, qs, hnew, hold, -⟩ := indices_gap (m := cur.length) (n := k)
    (s := { cur with length := n }) done ss (by simp only; omega)
  have hspan : (⟨k, n - cur.length - k⟩ : Span) = s := by
    ext
    · exact hk.symm
    · simp only
      omega
  simp only [hspan] at hold
  have hj : j ∈ ps ++ qs := hold ▸ hj
  rw [hnew]
  simp only [mem_append] at hj ⊢
  tauto

omit [DecidableEq C] in
/-- **A merge** with a result that has a place for each bucket. The counts from `i` on are those
behind the inserted buckets, and so are the ends of the spans. -/
lemma merge_step {s : Span} (hclean : Clean (done ++ cur :: s :: ss))
    (hlen : countSpans (done ++ cur :: s :: ss) = B.length) (hi : i ≤ countSpans done + cur.length)
    (hends : EndsPopulated ((absolute d 0 B).drop (countSpans done + cur.length)) (s :: ss))
    (hnear : ¬s.offset > m) (h : mergeSmallOffsets m d done cur (s :: ss) i abs B = some r)
    (hr : countSpans r.2 = r.1.length) :
    ∃ (k n : ℕ) (N : List C) (abs' : C), s.offset = k ∧ 0 < k ∧ n = cur.length + (k + s.length) ∧
      mergeSmallOffsets m d done { cur with length := n } ss (i + k) abs' N = some r ∧
      Clean (done ++ { cur with length := n } :: ss) ∧
      countSpans (done ++ { cur with length := n } :: ss) = N.length ∧
      (∀ p, i ≤ p → (absolute d 0 N)[p + k]? = (absolute d 0 B)[p]?) ∧
      (∃ x ≠ 0, (absolute d 0 N)[countSpans done + n - 1]? = some x) ∧
      EndsPopulated ((absolute d 0 N).drop (countSpans done + n)) ss := by
  have hgap : 0 < s.offset := hclean.gap s (by cases done <;> simp)
  have hpos := hclean.pos s (by simp)
  have hss : ∀ t ∈ ss, 0 < t.offset := fun t ht => hclean.gap t (by cases done <;> simp [ht])
  simp only [countSpans_append, countSpans_cons] at hlen
  obtain ⟨N, abs', hN, h⟩ := mergeSmallOffsets_near hnear h
  obtain ⟨k, hk⟩ := Int.eq_ofNat_of_zero_le hgap.le
  obtain ⟨n, hn⟩ : ∃ n, n = cur.length + (k + s.length) := ⟨_, rfl⟩
  obtain ⟨N', hN', hcounts⟩ := insertEmpty_spec (k := k) (by omega)
    (show i ≤ B.length by omega) d abs
  obtain rfl : N' = N := Option.some_injective _ (hN'.symm.trans (hk ▸ hN))
  obtain ⟨hNlen, -⟩ := insertEmpty_length hN' (by omega)
  have hcast : (cur.length + (s.offset + s.length) : ℤ) = n := by omega
  rw [hcast, show (i + s.offset).toNat = i + k by omega] at h
  -- A length that wraps around would leave buckets without a place.
  have hwrap : uint32 n = n := by
    refine (uint32_le n).lt_or_eq.resolve_left fun hlt => ?_
    have := mergeSmallOffsets_short h (by omega) (fun t ht => (hss t ht).le) (by
      simp only [countSpans_append, countSpans_cons]
      omega)
    omega
  rw [hwrap] at h
  have hshift : ∀ p, i ≤ p → (absolute d 0 N')[p + k]? = (absolute d 0 B)[p]? := by
    intro p hp
    rw [hcounts, getElem?_append_right (by simp; omega), getElem?_append_right (by simp; omega),
      getElem?_drop]
    congr 1
    simp
    omega
  obtain ⟨⟨x, hx, hlast⟩, hends⟩ := hends
  rw [getElem?_drop] at hlast
  rw [drop_drop] at hends
  refine ⟨k, n, N', abs', hk, by omega, hn, h, ⟨fun t ht => ?_, fun t ht => ?_⟩, ?_, hshift,
    ⟨x, hx, ?_⟩, ?_⟩
  · rcases mem_append.1 ht with ht | ht
    · exact hclean.pos t (mem_append_left _ ht)
    rcases mem_cons.1 ht with rfl | ht
    · simp only
      omega
    · exact hclean.pos t (by simp [ht])
  · cases done with
    | nil => exact hss t ht
    | cons u us =>
      rcases mem_append.1 ht with ht | ht
      · exact hclean.gap t (mem_append_left _ ht)
      rcases mem_cons.1 ht with rfl | ht
      · exact hclean.gap cur (by simp)
      · exact hss t ht
  · simp only [countSpans_append, countSpans_cons]
    omega
  · rw [show countSpans done + n - 1 = countSpans done + cur.length + (s.length - 1) + k by omega,
      hshift _ (by omega), hlast]
  · have hdrop : (absolute d 0 N').drop (countSpans done + n) =
        (absolute d 0 B).drop (countSpans done + cur.length + s.length) := by
      refine ext_getElem? fun q => ?_
      rw [getElem?_drop, getElem?_drop, ← hshift _ (by omega)]
      congr 1
      omega
    rwa [hdrop]

omit [DecidableEq C] in
/-- **After a merge** the place for the next buckets is too far in front: the bucket that was before
the gap ends up in it. -/
lemma mergeSmallOffsets_lagging (hclean : Clean (done ++ cur :: ss))
    (hlen : countSpans (done ++ cur :: ss) = B.length) (hlag : i < countSpans done + cur.length)
    (hlast : ∃ x ≠ 0, (absolute d 0 B)[countSpans done + cur.length - 1]? = some x)
    (hends : EndsPopulated ((absolute d 0 B).drop (countSpans done + cur.length)) ss)
    (hnear : ∃ s ∈ ss, s.offset ≤ (m : ℤ))
    (h : mergeSmallOffsets m d done cur ss i abs B = some r) (hr : countSpans r.2 = r.1.length) :
    Misplaces d (done ++ cur :: ss) r := by
  induction ss generalizing done cur i abs B with
  | nil => simp at hnear
  | cons s ss ih =>
    have hgap : 0 < s.offset := hclean.gap s (by cases done <;> simp)
    have hpos := hclean.pos s (by simp)
    by_cases hfar : s.offset > m
    · -- The place goes on with the span, and lags behind as before.
      rw [mergeSmallOffsets, if_pos hfar] at h
      have hassoc : done ++ cur :: s :: ss = done ++ [cur] ++ s :: ss := by simp
      obtain ⟨⟨x, hx, hlast'⟩, hends⟩ := hends
      rw [hassoc] at hclean hlen ⊢
      refine ih hclean hlen (by simp; omega) ⟨x, hx, ?_⟩ ?_ ?_ h
      · rw [← hlast', getElem?_drop]
        congr 1
        simp
        omega
      · rw [drop_drop] at hends
        simpa [add_assoc] using hends
      · obtain ⟨t, ht, hle⟩ := hnear
        rcases mem_cons.1 ht with rfl | ht
        · omega
        · exact ⟨t, ht, hle⟩
    obtain ⟨k, n, N, abs', hk, hkpos, hn, h, hclean', hlen', hshift, hlast', hends'⟩ :=
      merge_step hclean hlen hlag.le hends hfar h hr
    by_cases hnear' : ∃ t ∈ ss, t.offset ≤ (m : ℤ)
    · obtain ⟨j, x, hj, hx, hmem⟩ :=
        ih hclean' hlen' (by simp only; omega) hlast' hends' hnear' h
      exact ⟨j, x, fun hin => hj (indices_merged_subset done ss cur s hk hn hin), hx, hmem⟩
    · -- This is the last merge.
      simp only [not_exists, not_and, not_le] at hnear'
      rw [mergeSmallOffsets_far hnear'] at h
      obtain rfl := Option.some_injective _ h
      obtain ⟨x, hx, hlast⟩ := hlast
      have hassoc : done ++ cur :: s :: ss = done ++ [cur] ++ s :: ss := by simp
      refine ⟨endIdx 0 (done ++ [cur]) + s.offset - 1, x, ?_, hx, ?_⟩
      · rw [hassoc] at hclean ⊢
        exact hclean.notMem_before
      · refine getElem?_entries (p := countSpans done + cur.length - 1 + k) ?_
          ((hshift _ (by omega)).trans hlast)
        have hcur := hclean.pos cur (by simp)
        rw [show countSpans done + cur.length - 1 + k =
          countSpans done + (cur.length - 1 + k) by omega,
          getElem?_indices 0 (by simp only; omega), endIdx_append]
        simp only [endIdx, Option.some.injEq]
        omega

omit [DecidableEq C] in
/-- **Two merges** misplace a count: the second one is made at a place that lags behind. -/
lemma mergeSmallOffsets_twice (hclean : Clean (done ++ cur :: ss))
    (hlen : countSpans (done ++ cur :: ss) = B.length) (hi : i = countSpans done + cur.length)
    (hends : EndsPopulated ((absolute d 0 B).drop (countSpans done + cur.length)) ss)
    (htwo : ¬ss.Pairwise fun s t : Span => m < s.offset ∨ m < t.offset)
    (h : mergeSmallOffsets m d done cur ss i abs B = some r) (hr : countSpans r.2 = r.1.length) :
    Misplaces d (done ++ cur :: ss) r := by
  induction ss generalizing done cur i abs B with
  | nil => exact absurd Pairwise.nil htwo
  | cons s ss ih =>
    by_cases hfar : s.offset > m
    · rw [mergeSmallOffsets, if_pos hfar] at h
      have hassoc : done ++ cur :: s :: ss = done ++ [cur] ++ s :: ss := by simp
      rw [hassoc] at hclean hlen ⊢
      refine ih hclean hlen (by simp [hi]) ?_ (fun hss => htwo ?_) h
      · have hends := hends.2
        rw [drop_drop] at hends
        simpa [add_assoc] using hends
      · exact pairwise_cons.2 ⟨fun t _ => .inl hfar, hss⟩
    have hpos := hclean.pos s (by simp)
    obtain ⟨k, n, N, abs', hk, hkpos, hn, h, hclean', hlen', -, hlast', hends'⟩ :=
      merge_step hclean hlen hi.le hends hfar h hr
    have hnear : ∃ t ∈ ss, t.offset ≤ (m : ℤ) := by
      by_contra hall
      simp only [not_exists, not_and, not_le] at hall
      exact htwo (pairwise_cons.2 ⟨fun t ht => .inr (hall t ht),
        pairwise_iff_getElem.2 fun p q hp hq _ => .inl (hall _ (getElem_mem hp))⟩)
    obtain ⟨j, x, hj, hx, hmem⟩ :=
      mergeSmallOffsets_lagging hclean' hlen' (by simp only; omega) hlast' hends' hnear h hr
    exact ⟨j, x, fun hin => hj (indices_merged_subset done ss cur s hk hn hin), hx, hmem⟩

end Lag

/-! ### Offsets that wrap around -/

/-- A sum of offsets that is not less when they are wrapped: none of them is. -/
lemma wrapOffsets_eq_self_of_sum_le {spans : List Span} (h : ∀ s ∈ spans, -2 ^ 31 ≤ s.offset)
    (hle : (spans.map Span.offset).sum ≤ ((wrapOffsets spans).map Span.offset).sum) :
    wrapOffsets spans = spans := by
  have hsum : ∀ ss : List Span, (∀ s ∈ ss, -2 ^ 31 ≤ s.offset) →
      ((wrapOffsets ss).map Span.offset).sum ≤ (ss.map Span.offset).sum := by
    intro ss hss
    induction ss with
    | nil => simp
    | cons s ss ih =>
      rw [forall_mem_cons] at hss
      have := ih hss.2
      have := int32_le hss.1
      simp only [wrapOffsets_cons, map_cons, sum_cons]
      omega
  induction spans with
  | nil => rfl
  | cons s ss ih =>
    rw [forall_mem_cons] at h
    have hs := int32_le h.1
    have hss := hsum ss h.2
    simp only [wrapOffsets_cons, map_cons, sum_cons] at hle
    rw [wrapOffsets_cons, ih h.2 (by omega)]
    congr 1
    ext
    · simp only
      omega
    · rfl

section Result

variable {buckets B : List C} {spans S : List Span} {r : List C × List Span}

/-- The result holds the same populated buckets. -/
def Preserves (d : Bool) (buckets : List C) (spans : List Span) (r : List C × List Span) : Prop :=
  Agree r.2 r.1 ∧ populated (entries r.2 (absolute d 0 r.1)) =
    populated (entries spans (absolute d 0 buckets))

/-- The slices before the last pass, with exact offsets. -/
structure Cutout (m : ℕ) (d : Bool) (buckets : List C) (spans : List Span) (B : List C)
    (S : List Span) : Prop where
  trimmed : Trimmed m (indices 0 spans)
    ((populated (entries spans (absolute d 0 buckets))).map Prod.fst) S
  length_eq : countSpans S = B.length
  populated_eq : populated (entries S (absolute d 0 B)) =
    populated (entries spans (absolute d 0 buckets))

/-- The passes before the last one. -/
lemma exists_cutout (h : Agree spans buckets) (m : ℕ) (d : Bool) :
    ∃ B S c, Cursor.loop int32 m d buckets.length ⟨[], mergeSpans int32 spans, [], buckets, 0, 0⟩ =
        some c ∧ c.bucketsDone ++ c.buckets = B ∧ c.spansDone ++ c.spans = wrapOffsets S ∧
      Cutout m d buckets spans B S := by
  set es := populated (entries spans (absolute d 0 buckets)) with hes
  have hlisted : ∀ k ∈ es.map Prod.fst, k ∈ indices 0 spans := by
    intro k hk
    obtain ⟨p, x, hp, -⟩ := mem_populated_iff.1 hk
    exact mem_of_getElem? hp
  have hstart : TrimInv m d (indices 0 spans) (es.map Prod.fst)
      ⟨[], mergeSpans id spans, [], buckets, 0, 0⟩ := by
    refine ⟨fun k hk => ?_, fun k hk => ?_, by simp, by simp⟩
    · rwa [nil_append, indices_mergeSpans] at hk
    · obtain ⟨i, j, -, hik, hkj, -, hall⟩ := hk
      rw [nil_append, indices_mergeSpans]
      exact hall k hik hkj
  obtain ⟨c, hloop, hinv, htrim, hb⟩ := cut_spec (m := m) (d := d) h.length_eq
    (fun c c' as hinv ht hk => ht.keep h.offsets hinv hk)
    (fun c c' s ss as bs hinv ht hc => ht.cut h.offsets hinv hc) hstart
  have hlen := hinv.length_eq
  have hpop := hinv.populated
  rw [hb] at hlen hpop
  refine ⟨c.bucketsDone, c.spansDone ++ c.spans, c.wrap, hloop, by simp [Cursor.wrap, hb],
    by simp [Cursor.wrap], ⟨hinv.clean h.offsets, fun k => ?_, hlisted⟩, by simpa using hlen,
    by simpa using hpop⟩
  constructor
  · intro hk
    refine htrim.needed k ?_
    rwa [take_of_length_le]
    simpa using hlen.le
  · rintro (hk | hk)
    · exact hinv.subset k hk
    · exact htrim.bridged k hk

/-- If there is nothing to do, the slices are as the passes would leave them. -/
lemma cutout_of_nothingToDo (h : Agree spans buckets)
    (hnothing : nothingToDo buckets spans m d = true) :
    Cutout m d buckets spans buckets spans ∧ ∀ s ∈ spans, (m : ℤ) < s.offset := by
  simp only [nothingToDo, Bool.and_eq_true, all_eq_true, decide_eq_true_eq, not_or, not_le]
    at hnothing
  have hfar : ∀ s ∈ spans, (m : ℤ) < s.offset := fun s hs => (hnothing.2 s hs).1
  have hne : ∀ x ∈ absolute d 0 buckets, x ≠ 0 := by
    cases d <;> simpa [absolute_true] using hnothing.1
  have hall : ∀ k ∈ indices 0 spans,
      k ∈ (populated (entries spans (absolute d 0 buckets))).map Prod.fst := by
    intro k hk
    obtain ⟨p, hp⟩ := mem_iff_getElem?.1 hk
    obtain ⟨hlt, -⟩ := List.getElem?_eq_some_iff.1 hp
    have hlt' : p < (absolute d 0 buckets).length := by
      rw [length_absolute, ← h.length_eq, ← length_indices 0]
      exact hlt
    exact mem_populated_iff.2 ⟨p, _, hp, getElem?_eq_getElem hlt', hne _ (getElem_mem hlt')⟩
  refine ⟨⟨⟨⟨fun s hs => Nat.pos_of_ne_zero (hnothing.2 s hs).2, fun s hs => ?_⟩,
    fun k => ⟨fun hk =>
    .inl (hall k hk), ?_⟩, fun k hk => ?_⟩, h.length_eq, rfl⟩, hfar⟩
  · have := hfar s (mem_of_mem_tail hs)
    omega
  · rintro (hk | ⟨i, j, -, hik, hkj, -, his⟩)
    · obtain ⟨p, x, hp, -⟩ := mem_populated_iff.1 hk
      exact mem_of_getElem? hp
    · exact his k hik hkj
  · obtain ⟨p, x, hp, -⟩ := mem_populated_iff.1 hk
    exact mem_of_getElem? hp

variable (h : Agree spans buckets) (hc : Cutout m d buckets spans B S)

include h hc

omit h in
lemma Cutout.subset : ∀ k ∈ indices 0 S, k ∈ indices 0 spans := by
  intro k hk
  rcases (hc.trimmed.mem_iff k).1 hk with hps | ⟨i, j, -, hik, hkj, -, his⟩
  · exact hc.trimmed.listed k hps
  · exact his k hik hkj

lemma Cutout.length_le : B.length ≤ buckets.length := by
  have hnodup : (indices 0 S).Nodup :=
    (pairwise_indices 0 hc.trimmed.toClean.nonnegOffsets).imp ne_of_lt
  have := (hnodup.subperm hc.subset).length_le
  rwa [length_indices, length_indices, hc.length_eq, h.length_eq] at this

/-- The offsets are `int32`s exactly if the gaps are short enough. Bridged gaps are: all their
buckets are there. -/
lemma Cutout.gapsFit_iff (hshort : buckets.length ≤ 2 ^ 31) :
    GapsFit ((populated (entries spans (absolute d 0 buckets))).map Prod.fst) ↔
      wrapOffsets S = S := by
  rw [wrapOffsets_eq_self]
  refine hc.trimmed.tight.gapsFit_iff fun i j hij hall => ?_
  have hi := hc.trimmed.listed i hij.1
  have hnodup : (i :: indexRange (i + 1) (j - i - 1).toNat).Nodup :=
    nodup_cons.2 ⟨fun hin => by rw [mem_indexRange] at hin; omega,
      (pairwise_indexRange _ _).imp ne_of_lt⟩
  have hle := (hnodup.subperm fun k hk => show k ∈ indices 0 spans by
    rcases mem_cons.1 hk with rfl | hk
    · exact hi
    · rw [mem_indexRange] at hk
      exact hc.subset k (hall k (by omega) (by omega))).length_le
  rw [length_indices, h.length_eq] at hle
  have hlt := hij.2.2.1
  simp at hle
  constructor <;> omega

/-- **If the buckets are kept**, no offset has wrapped around: the last index would be beyond the
end of the spans. -/
lemma Cutout.wrapOffsets_eq (hint : ∀ s ∈ spans, IsInt32 s.offset)
    (hr : Preserves d buckets spans r)
    (hsum : (r.2.map Span.offset).sum + r.1.length =
      ((wrapOffsets S).map Span.offset).sum + B.length) : wrapOffsets S = S := by
  have htight := hc.trimmed.tight
  rcases eq_nil_or_concat' S with rfl | ⟨as, s, rfl⟩
  · rfl
  set S := as ++ [s]
  have hlast : endIdx 0 S - 1 ∈ indices 0 r.2 := by
    have := htight.last as s [] rfl
    rw [← hr.2] at this
    obtain ⟨p, x, hp, -⟩ := mem_populated_iff.1 this
    exact mem_of_getElem? hp
  have hlt := lt_endIdx hr.1.offsets hlast
  have hagree := hr.1.length_eq
  have hlen := hc.length_eq
  rw [endIdx_eq, endIdx_eq] at hlt
  refine wrapOffsets_eq_self_of_sum_le (fun t ht => ?_) (by omega)
  -- The first offset is the index of a bucket, and the others are not negative.
  obtain ⟨us, vs, heq⟩ := append_of_mem ht
  obtain rfl | hus := eq_or_ne us []
  · have hfirst := hc.trimmed.listed _ (htight.first [] t vs heq)
    rw [endIdx_nil, zero_add] at hfirst
    cases spans with
    | nil => simp at hfirst
    | cons u us =>
      have hle := offset_le_of_mem h.offsets hfirst
      have := (hint u mem_cons_self).1
      omega
  · have := hc.trimmed.gap t (by
      obtain ⟨u, us, rfl⟩ := exists_cons_of_ne_nil hus
      rw [heq]
      simp)
    omega

omit h in
/-- Each span ends with a populated bucket. -/
lemma Cutout.endsPopulated (done : List Span) {ss : List Span} (hS : S = done ++ ss) :
    EndsPopulated ((absolute d 0 B).drop (countSpans done)) ss := by
  induction ss generalizing done with
  | nil => trivial
  | cons s ss ih =>
    have hs := hc.trimmed.pos s (by simp [hS])
    refine ⟨?_, ?_⟩
    · have hlast := hc.trimmed.tight.last done s ss hS
      rw [← hc.populated_eq] at hlast
      obtain ⟨p, x, hp, hx, hne⟩ := mem_populated_iff.1 hlast
      refine ⟨x, hne, ?_⟩
      have hidx : (indices 0 S)[countSpans done + (s.length - 1)]? =
          some (endIdx 0 (done ++ [s]) - 1) := by
        rw [hS, getElem?_indices 0 (by omega), endIdx_append]
        simp only [endIdx, Option.some.injEq]
        omega
      have hoff := hc.trimmed.toClean.nonnegOffsets
      obtain rfl : p = countSpans done + (s.length - 1) := by
        rcases lt_trichotomy p (countSpans done + (s.length - 1)) with hlt | heq | hgt
        · exact absurd (getElem?_indices_lt hoff hp hidx hlt) (lt_irrefl _)
        · exact heq
        · exact absurd (getElem?_indices_lt hoff hidx hp hgt) (lt_irrefl _)
      rw [getElem?_drop, hx]
    · rw [drop_drop]
      simpa using ih (done ++ [s]) (by simp [hS])

omit h in
/-- No count is misplaced in a result that holds the same buckets. -/
lemma Cutout.not_misplaces (hr : Preserves d buckets spans r) : ¬Misplaces d S r := by
  rintro ⟨k, x, hk, hx, hmem⟩
  refine hk ((hc.trimmed.mem_iff k).2 (.inl ?_))
  rw [← hr.2]
  exact mem_map.2 ⟨(k, x), mem_filter.2 ⟨hmem, by simpa using hx⟩, rfl⟩

/-- **The last pass**, on the spans as they are with the offsets wrapped. -/
lemma Cutout.mergeSmallOffsets_iff (hint : ∀ s ∈ spans, IsInt32 s.offset)
    (hshort : B.length ≤ 2 ^ 31) {s : Span} {ss : List Span} (hS : S = s :: ss) :
    (∃ r, mergeSmallOffsets m d [] ⟨int32 s.offset, s.length⟩ (wrapOffsets ss) s.length
        (if d then (B.take s.length).sum else 0) B = some r ∧ Preserves d buckets spans r) ↔
      wrapOffsets S = S ∧
        S.tail.Pairwise fun s t : Span => m < s.offset ∨ m < t.offset := by
  have hlen := hc.length_eq
  have hclean := hc.trimmed.toClean
  have hends := hc.endsPopulated [s] hS
  rw [hS] at hlen hclean
  constructor
  · rintro ⟨r, hr, hpres⟩
    have hsum := mergeSmallOffsets_sum hr (by simpa using hlen.le)
    have hself : wrapOffsets S = S := hc.wrapOffsets_eq h hint hpres (by rw [hsum, hS]; rfl)
    refine ⟨hself, ?_⟩
    rw [hS, wrapOffsets_cons, cons.injEq] at hself
    rw [hself.1, hself.2] at hr
    by_contra htwo
    rw [hS] at htwo
    have hmis := mergeSmallOffsets_twice (show Clean ([] ++ s :: ss) from hclean) hlen (by simp)
      (by simpa using hends) htwo
      hr hpres.1.length_eq
    rw [nil_append, ← hS] at hmis
    exact hc.not_misplaces hpres hmis
  · rintro ⟨hself, hone⟩
    have hoff := wrapOffsets_eq_self.1 hself
    rw [hS, wrapOffsets_cons, cons.injEq] at hself
    rw [hself.1, hself.2]
    rw [hS] at hone hoff
    obtain ⟨r, hr, hagree, hpop⟩ := mergeSmallOffsets_spec (i := s.length)
      (show Clean ([] ++ s :: ss) from hclean) hlen hshort (forall_mem_cons.1 hoff).2 hone
        (by simp) fun hd => if_pos hd
    refine ⟨r, hr, hagree, hpop.trans ?_⟩
    rw [nil_append, ← hS, hc.populated_eq]

end Result

/-- **The counts are kept** exactly if no gap between populated buckets is too long for an `int32`,
and at most one gap is filled. -/
theorem compactBuckets_populated_iff {buckets : List C} {spans : List Span}
    (h : Agree spans buckets)
    (hint : ∀ s ∈ spans, IsInt32 s.offset) (hshort : buckets.length ≤ 2 ^ 31) (m : ℕ) (d : Bool) :
    (∃ buckets' spans', compactBuckets buckets spans m d = some (buckets', spans') ∧
      Agree spans' buckets' ∧ populated (entries spans' (absolute d 0 buckets')) =
        populated (entries spans (absolute d 0 buckets))) ↔
    GapsFit ((populated (entries spans (absolute d 0 buckets))).map Prod.fst) ∧
      FillsOnce m (indices 0 spans)
        ((populated (entries spans (absolute d 0 buckets))).map Prod.fst) := by
  change (∃ buckets' spans', _ ∧ Preserves d buckets spans (buckets', spans')) ↔ _
  rw [← Prod.exists (p := fun r => compactBuckets buckets spans m d = some r ∧
    Preserves d buckets spans r)]
  unfold compactBuckets
  by_cases hnothing : nothingToDo buckets spans m d = true
  · obtain ⟨hc, hfar⟩ := cutout_of_nothingToDo h hnothing
    rw [hc.gapsFit_iff h hshort, hc.trimmed.fillsOnce_iff, wrapOffsets_eq_self, if_pos hnothing]
    refine iff_of_true ⟨_, rfl, h, rfl⟩ ⟨hint, pairwise_iff_getElem.2 fun p q hp hq _ => .inl ?_⟩
    exact hfar _ (mem_of_mem_tail (getElem_mem hp))
  obtain ⟨B, S, c, hloop, hB, hspans, hc⟩ := exists_cutout h m d
  rw [hc.gapsFit_iff h hshort, hc.trimmed.fillsOnce_iff, if_neg hnothing, hloop, Option.bind_some]
  simp only [hB, hspans]
  have hlen := hc.length_eq
  by_cases hend : m = 0 ∨ B = []
  · -- The last pass is not made.
    have hone : S.tail.Pairwise fun s t : Span => m < s.offset ∨ m < t.offset := by
      rcases hend with rfl | rfl
      · exact pairwise_iff_getElem.2 fun p q hp hq _ => .inl
          (by simpa using hc.trimmed.gap _ (getElem_mem hp))
      · cases S with
        | nil => exact Pairwise.nil
        | cons s ss =>
          have := hc.trimmed.pos s mem_cons_self
          simp at hlen
          omega
    rw [if_pos hend, and_iff_left hone]
    constructor
    · rintro ⟨r, hr, hpres⟩
      obtain rfl := Option.some_injective _ hr
      exact hc.wrapOffsets_eq h hint hpres rfl
    · intro hself
      rw [hself]
      exact ⟨_, rfl, ⟨hlen, hc.trimmed.nonnegOffsets⟩, hc.populated_eq⟩
  rw [if_neg hend]
  cases S with
  | nil => exact absurd (length_eq_zero_iff.1 hlen.symm) (not_or.1 hend).2
  | cons s ss =>
    exact hc.mergeSmallOffsets_iff h hint ((hc.length_le h).trans hshort) rfl

/-- One gap of 1 is filled, in deltas. The other gap is too long for that. -/
theorem compactBuckets_populated_three :
    ∃ buckets' spans', compactBuckets ([1, 1, 3] : List ℤ) [⟨0, 1⟩, ⟨1, 1⟩, ⟨4, 1⟩] 2 true =
        some (buckets', spans') ∧
      Agree spans' buckets' ∧ populated (entries spans' (absolute true 0 buckets')) =
        populated (entries [⟨0, 1⟩, ⟨1, 1⟩, ⟨4, 1⟩] (absolute true 0 ([1, 1, 3] : List ℤ))) :=
  (compactBuckets_populated_iff ⟨rfl, by simp⟩ (by decide) (by decide) 2 true).2 (by decide)

/-- Of three spans with gaps of 1, the second gap is filled before the second span. -/
theorem compactBuckets_misplaces :
    Agree [⟨0, 1⟩, ⟨1, 1⟩, ⟨1, 1⟩] ([1, 2, 3] : List ℤ) ∧
      compactBuckets ([1, 2, 3] : List ℤ) [⟨0, 1⟩, ⟨1, 1⟩, ⟨1, 1⟩] 1 false =
        some ([1, 0, 0, 2, 3], [⟨0, 5⟩]) ∧
      populated (entries [⟨0, 5⟩] ([1, 0, 0, 2, 3] : List ℤ)) = [(0, 1), (3, 2), (4, 3)] ∧
      populated (entries [⟨0, 1⟩, ⟨1, 1⟩, ⟨1, 1⟩] ([1, 2, 3] : List ℤ)) =
        [(0, 1), (2, 2), (4, 3)] :=
  ⟨⟨rfl, by simp⟩, by decide⟩

end Prometheus.Histogram
