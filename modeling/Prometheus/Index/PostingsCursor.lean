import Prometheus.Index.Postings

/-!
# Postings iterators as cursors

`IsCursor P L A ok R` is the contract that the combinators rely on and keep: the iterator `P` moves
through the set `L` in increasing order. It is stated for the states reached after a false, too:
`Intersect` and `Without` go on calling iterators that have failed. Such an iterator may return true
again, but only with a reference within bounds: in `Pos.dead l b` it has been at `l`, and it does
not go to `b` or beyond. `ok` are the values the iterator can be sought for, and `A` the references
it can ever return.

The lists in memory can be sought for every value, those of the index file for values of 32 bits.
-/

namespace Prometheus.Index

open BitList List BigEndianPostings

/-! ### The contract -/

/-- The position of an iterator: at `p`, before the first element if `p = 0`, or failed. -/
inductive Pos
  | alive (p : ℕ)
  | dead (l b : ℕ)

/-- A position the iterator will not go back from. -/
def Pos.lo : Pos → ℕ
  | .alive p => p
  | .dead l _ => l

@[simp] lemma Pos.lo_alive (p : ℕ) : (Pos.alive p).lo = p := rfl

@[simp] lemma Pos.lo_dead (l b : ℕ) : (Pos.dead l b).lo = l := rfl

/-- `Next` and `Seek` move over `L` as a cursor does, if every seek is `ok`. After a failed call, a
seek may still find an element of `A`, but none before where the cursor was. -/
structure IsCursor {S : Type} (P : Postings S) (L A : Set ℕ) (ok : ℕ → Prop) (R : S → Pos → Prop) :
    Prop where
  sub : L ⊆ A
  bounds : ∀ a ∈ A, 1 ≤ a ∧ a < 2 ^ 64 - 1
  at_eq : ∀ {s p}, R s (.alive p) → p ≠ 0 → P.atRef s = p
  mem : ∀ {s p}, R s (.alive p) → p = 0 ∨ p ∈ L
  next_alive : ∀ {s p}, R s (.alive p) →
    (∃ c s', IsLeast {x | x ∈ L ∧ p < x} c ∧ P.next s = some (true, s') ∧ R s' (.alive c)) ∨
      (∀ x ∈ L, x ≤ p) ∧ ∃ s', P.next s = some (false, s') ∧ R s' (.dead p (p + 1))
  seek_alive : ∀ {s p v}, R s (.alive p) → 1 ≤ v → ok v →
    (v ≤ p ∧ ∃ s', P.seek s v = some (true, s') ∧ R s' (.alive p)) ∨
      (p < v ∧ ∃ c s', IsLeast {x | x ∈ L ∧ v ≤ x} c ∧ P.seek s v = some (true, s') ∧
        R s' (.alive c)) ∨
      p < v ∧ (∀ x ∈ L, x < v) ∧ ∃ s', P.seek s v = some (false, s') ∧ R s' (.dead p v)
  next_dead : ∀ {s l b}, R s (.dead l b) → ∃ s', P.next s = some (false, s') ∧ R s' (.dead l b)
  seek_dead : ∀ {s l b v}, R s (.dead l b) → 1 ≤ v → ok v →
    (∃ s', P.seek s v = some (false, s') ∧ R s' (.dead l (max b v))) ∨
      ∃ x s', P.seek s v = some (true, s') ∧ P.atRef s' = x ∧ x ∈ A ∧ l ≤ x ∧ v ≤ x ∧ x < b ∧
        R s' (.dead x (max b v))

/-- A call from `p` goes to the first element from `lim` on, or fails if there is none. -/
def MovesTo {S : Type} (L : Set ℕ) (R : S → Pos → Prop) (p lim : ℕ)
    (res : Option (Bool × S)) : Prop :=
  (∃ c s', IsLeast {x | x ∈ L ∧ lim ≤ x} c ∧ res = some (true, s') ∧ R s' (.alive c)) ∨
    (∀ x ∈ L, x < lim) ∧ ∃ s', res = some (false, s') ∧ R s' (.dead p lim)

variable {ok : ℕ → Prop}

/-- The contract, in terms of `MovesTo`. -/
lemma IsCursor.of_moves {S : Type} {P : Postings S} {L A : Set ℕ} {R : S → Pos → Prop}
    (sub : L ⊆ A) (bounds : ∀ a ∈ A, 1 ≤ a ∧ a < 2 ^ 64 - 1)
    (at_eq : ∀ {s p}, R s (.alive p) → P.atRef s = p)
    (mem : ∀ {s p}, R s (.alive p) → p = 0 ∨ p ∈ L)
    (next : ∀ {s p}, R s (.alive p) → MovesTo L R p (p + 1) (P.next s))
    (seek : ∀ {s p v}, R s (.alive p) → 1 ≤ v → ok v →
      (v ≤ p ∧ ∃ s', P.seek s v = some (true, s') ∧ R s' (.alive p)) ∨ p < v ∧
      MovesTo L R p v (P.seek s v))
    (next_dead : ∀ {s l b}, R s (.dead l b) → ∃ s', P.next s = some (false, s') ∧ R s' (.dead l b))
    (seek_dead : ∀ {s l b v}, R s (.dead l b) → 1 ≤ v → ok v →
      (∃ s', P.seek s v = some (false, s') ∧ R s' (.dead l (max b v))) ∨
        ∃ s', P.seek s v = some (true, s') ∧ P.atRef s' ∈ A ∧ l ≤ P.atRef s' ∧ v ≤ P.atRef s' ∧
          P.atRef s' < b ∧ R s' (.dead (P.atRef s') (max b v))) : IsCursor P L A ok R where
  sub := sub
  bounds := bounds
  at_eq hs _ := at_eq hs
  mem := mem
  next_alive hs := (next hs).imp_right fun ⟨hall, hend⟩ =>
    ⟨fun x hx => Nat.le_of_lt_succ (hall x hx), hend⟩
  seek_alive hs hv hok := (seek hs hv hok).imp_right fun ⟨hlt, h⟩ => h.imp (⟨hlt, ·⟩) (⟨hlt, ·⟩)
  next_dead := next_dead
  seek_dead hs hv hok := (seek_dead hs hv hok).imp_right fun ⟨s', hseek, h⟩ =>
    ⟨_, s', hseek, rfl, h⟩

/-- Where a `Seek` that returns true goes. -/
def SeekTrue (L A : Set ℕ) (v : ℕ) : Pos → Pos → Prop
  | .alive p, pos => v ≤ p ∧ pos = .alive p ∨
      p < v ∧ ∃ c, IsLeast {x | x ∈ L ∧ v ≤ x} c ∧ pos = .alive c
  | .dead l b, pos => ∃ x, x ∈ A ∧ l ≤ x ∧ v ≤ x ∧ x < b ∧ pos = .dead x (max b v)

/-- Where a `Seek` that returns false goes. -/
def SeekFalse (L : Set ℕ) (v : ℕ) : Pos → Pos → Prop
  | .alive p, pos => p < v ∧ (∀ x ∈ L, x < v) ∧ pos = .dead p v
  | .dead l b, pos => pos = .dead l (max b v)

section Seek

variable {L A : Set ℕ} {v : ℕ} {pos pos' : Pos}

lemma SeekTrue.lo_le_lo (h : SeekTrue L A v pos pos') : pos.lo ≤ pos'.lo := by
  cases pos with
  | alive p =>
    obtain ⟨-, rfl⟩ | ⟨hlt, c, hc, rfl⟩ := h
    · exact le_refl _
    · exact hlt.le.trans hc.1.2
  | dead l b =>
    obtain ⟨x, -, hl, -, -, rfl⟩ := h
    exact hl

lemma SeekTrue.le_lo (h : SeekTrue L A v pos pos') : v ≤ pos'.lo := by
  cases pos with
  | alive p =>
    obtain ⟨hle, rfl⟩ | ⟨-, c, hc, rfl⟩ := h
    · exact hle
    · exact hc.1.2
  | dead l b =>
    obtain ⟨x, -, -, hv, -, rfl⟩ := h
    exact hv

lemma SeekFalse.lo_eq (h : SeekFalse L v pos pos') : pos'.lo = pos.lo := by
  cases pos with
  | alive p =>
    obtain ⟨-, -, rfl⟩ := h
    rfl
  | dead l b =>
    obtain rfl : pos' = _ := h
    rfl

/-- A `Seek`, from wherever the iterator is. -/
lemma IsCursor.seek {S : Type} {P : Postings S} {R : S → Pos → Prop}
    (h : IsCursor P L A ok R) {s : S} (hs : R s pos) (hv : 1 ≤ v) (hok : ok v) :
    ∃ res s' pos', P.seek s v = some (res, s') ∧ R s' pos' ∧
      if res then SeekTrue L A v pos pos' ∧ P.atRef s' = pos'.lo ∧ pos'.lo ∈ A
      else SeekFalse L v pos pos' := by
  cases pos with
  | alive p =>
    rcases h.seek_alive hs hv hok with ⟨hle, s', hseek, hs'⟩ | ⟨hlt, c, s', hc, hseek, hs'⟩ |
      ⟨hlt, hall, s', hseek, hs'⟩
    · have hp : p ≠ 0 := by omega
      exact ⟨true, s', .alive p, hseek, hs', .inl ⟨hle, rfl⟩, h.at_eq hs' hp,
        h.sub ((h.mem hs').resolve_left hp)⟩
    · have hcpos : c ≠ 0 := Nat.one_le_iff_ne_zero.1 (hv.trans hc.1.2)
      exact ⟨true, s', .alive c, hseek, hs', .inr ⟨hlt, c, hc, rfl⟩, h.at_eq hs' hcpos,
        h.sub hc.1.1⟩
    · exact ⟨false, s', _, hseek, hs', hlt, hall, rfl⟩
  | dead l b =>
    rcases h.seek_dead hs hv hok with ⟨s', hseek, hs'⟩ | ⟨x, s', hseek, hat, hx, hl, hle, hb, hs'⟩
    · exact ⟨false, s', _, hseek, hs', rfl⟩
    · exact ⟨true, s', .dead x (max b v), hseek, hs', ⟨x, hx, hl, hle, hb, rfl⟩, hat, hx⟩

end Seek

lemma emptyPostings_isCursor : IsCursor emptyPostings ∅ ∅ (fun _ => True) fun _ pos =>
    match pos with
    | .alive p => p = 0
    | .dead _ _ => True where
  sub := subset_rfl
  bounds := by simp
  at_eq h hp := absurd h hp
  mem h := .inl h
  next_alive _ := .inr ⟨by simp, (), rfl, trivial⟩
  seek_alive := by
    intro s p v h hv _
    exact .inr (.inr ⟨by omega, by simp, (), rfl, trivial⟩)
  next_dead _ := ⟨(), rfl, trivial⟩
  seek_dead _ _ _ := .inl ⟨(), rfl, trivial⟩

/-! ### Lists -/

variable {v p : ℕ}

section Lists

/-- The references `rs` still ahead and the current one, as positions in `refs`. -/
def ListAt (refs rs : List ℕ) (cur : ℕ) : Pos → Prop
  | .alive p => cur = p ∧ (p = 0 ∨ p ∈ refs) ∧ rs.Pairwise (· < ·) ∧ ∀ x, x ∈ rs ↔ x ∈ refs ∧ p < x
  | .dead l b => rs = [] ∧ (cur = 0 ∨ cur ∈ refs ∧ l ≤ cur ∧ cur < b)

/-- A strictly increasing list of references. -/
structure ValidRefs (refs : List ℕ) : Prop where
  sorted : refs.Pairwise (· < ·)
  bounds : ∀ x ∈ refs, 1 ≤ x ∧ x < 2 ^ 64 - 1

variable {refs rs : List ℕ} {cur : ℕ}

lemma mem_iff_of_sorted {pre post : List ℕ} {y : ℕ} (h : (pre ++ y :: post).Pairwise (· < ·))
    (x : ℕ) : x ∈ post ↔ x ∈ pre ++ y :: post ∧ y < x := by
  obtain ⟨-, hpost, hpre⟩ := pairwise_append.1 h
  constructor
  · exact fun hx => ⟨by simp [hx], rel_of_pairwise_cons hpost hx⟩
  · rintro ⟨hx, hlt⟩
    rcases mem_append.1 hx with hx | hx
    · exact absurd (hpre x hx y (by simp)) hlt.asymm
    · exact (mem_cons.1 hx).resolve_left hlt.ne'

/-- The binary search for `v` finds the first reference not below it, or that there is none. -/
lemma search_refs (h : rs.Pairwise (· < ·)) (v : ℕ) :
    let i := BinarySearch.search rs.length fun i => v ≤ rs.getD i 0
    (∃ y, rs[i]? = some y ∧ IsLeast {x | x ∈ rs ∧ v ≤ x} y ∧
        ∀ x, x ∈ rs.drop (i + 1) ↔ x ∈ rs ∧ y < x) ∨
      rs[i]? = none ∧ ∀ x ∈ rs, x < v := by
  obtain ⟨pre, post, rfl, hsearch, hpre, hpost⟩ := BinarySearch.search_list
    (p := fun x => decide (v ≤ x)) (f := fun i => decide (v ≤ rs.getD i 0))
    (fun i hi => by rw [getD_eq_getElem _ _ hi])
    (h.imp fun hab hle => by simp only [decide_eq_true_eq] at hle ⊢; omega)
  simp only [decide_eq_false_iff_not, decide_eq_true_eq, not_le] at hpre hpost
  rw [hsearch]
  cases post with
  | nil => exact .inr ⟨by simp, by simpa using hpre⟩
  | cons y post =>
    refine .inl ⟨y, by simp, ⟨⟨by simp, hpost y (by simp)⟩, ?_⟩, fun x => ?_⟩
    · rintro x ⟨hx, hvx⟩
      rcases mem_append.1 hx with hx | hx
      · exact absurd (hpre x hx) hvx.not_gt
      rcases mem_cons.1 hx with rfl | hx
      · exact le_rfl
      · exact (rel_of_pairwise_cons (pairwise_append.1 h).2.1 hx).le
    · rw [← drop_drop, drop_left]
      exact mem_iff_of_sorted h x

/-- `Seek` in a list, from the position before it. -/
lemma ListAt.seek {i : ℕ} (h : ListAt refs rs cur (.alive p)) (hlt : p < v)
    (hi : i = BinarySearch.search rs.length fun i => v ≤ rs.getD i 0) :
    (∃ y, rs[i]? = some y ∧ IsLeast {x | x ∈ refs ∧ v ≤ x} y ∧
        ListAt refs (rs.drop (i + 1)) y (.alive y)) ∨
      rs[i]? = none ∧ (∀ x ∈ refs, x < v) ∧ ListAt refs [] cur (.dead p v) := by
  obtain ⟨rfl, hp, hsorted, hmem⟩ := h
  subst hi
  rcases search_refs hsorted v with ⟨y, hy, hleast, hdrop⟩ | ⟨hnone, hall⟩
  · have hyrs := (hmem y).1 hleast.1.1
    refine .inl ⟨y, hy, ⟨⟨hyrs.1, hleast.1.2⟩, ?_⟩, rfl, .inr hyrs.1,
      hsorted.sublist (drop_sublist _ _), fun x => ?_⟩
    · rintro x ⟨hx, hvx⟩
      exact hleast.2 ⟨(hmem x).2 ⟨hx, by omega⟩, hvx⟩
    · rw [hdrop, hmem, and_assoc]
      exact and_congr_right fun _ => ⟨fun hx => hx.2, fun hx => ⟨by omega, hx⟩⟩
  · refine .inr ⟨hnone, fun x hx => ?_, rfl, ?_⟩
    · by_contra hge
      exact hge (hall x ((hmem x).2 ⟨hx, by omega⟩))
    · exact hp.imp_right fun hmem => ⟨hmem, le_refl _, hlt⟩

attribute [local simp] ListPostings.seek listPostings bigEndianPostings seek

/-- `Next` in a list. -/
lemma ListAt.next_cons {y : ℕ} (h : ListAt refs (y :: rs) cur (.alive p)) :
    IsLeast {x | x ∈ refs ∧ p < x} y ∧ ListAt refs rs y (.alive y) := by
  obtain ⟨rfl, hp, hsorted, hmem⟩ := h
  have hy := (hmem y).1 mem_cons_self
  have hrs : ∀ x, x ∈ rs ↔ x ∈ [] ++ y :: rs ∧ y < x := mem_iff_of_sorted hsorted
  refine ⟨⟨hy, ?_⟩, rfl, .inr hy.1, hsorted.of_cons, fun x => ?_⟩
  · rintro x hx
    rcases mem_cons.1 ((hmem x).2 hx) with rfl | hx
    · exact le_refl _
    · exact (rel_of_pairwise_cons hsorted hx).le
  · rw [hrs, nil_append, hmem, and_assoc]
    exact and_congr_right fun _ => ⟨fun hx => hx.2, fun hx => ⟨hy.2.trans hx, hx⟩⟩

lemma ListAt.le_of_nil (h : ListAt refs [] cur (.alive p)) : ∀ x ∈ refs, x ≤ p := by
  intro x hx
  by_contra hlt
  have := (h.2.2.2 x).2 ⟨hx, not_le.1 hlt⟩
  cases this

/-- The state a list starts in. -/
lemma ListAt.fresh (h : ValidRefs refs) : ListAt refs refs 0 (.alive 0) :=
  ⟨rfl, .inl rfl, h.sorted, fun x => ⟨fun hx => ⟨hx, (h.bounds x hx).1⟩, fun hx => hx.1⟩⟩

/-- The current element of a failed list that satisfies a `Seek`. -/
lemma ListAt.stay_dead {l b : ℕ} (h : ListAt refs rs cur (.dead l b)) (hv : 1 ≤ v)
    (hle : v ≤ cur) :
    cur ∈ refs ∧ l ≤ cur ∧ cur < b ∧ ListAt refs rs cur (.dead cur (max b v)) := by
  obtain ⟨hnil, rfl | ⟨hmem, hl, hb⟩⟩ := h
  · omega
  · exact ⟨hmem, hl, hb, hnil, .inr ⟨hmem, le_refl _, lt_max_of_lt_left hb⟩⟩

lemma ListAt.mono_dead {l b : ℕ} (h : ListAt refs rs cur (.dead l b)) :
    ListAt refs [] cur (.dead l (max b v)) :=
  ⟨rfl, h.2.imp_right fun h => ⟨h.1, h.2.1, lt_max_of_lt_left h.2.2⟩⟩

lemma ListAt.subset {pos : Pos} (h : ListAt refs rs cur pos) : rs ⊆ refs := by
  cases pos with
  | alive p => exact fun x hx => ((h.2.2.2 x).1 hx).1
  | dead l b => simp [h.1]

/-- An iterator that goes through a list, whatever it keeps the list in. -/
lemma isCursor_of_list {S : Type} {P : Postings S} {R : S → Pos → Prop} (mk : List ℕ → ℕ → S)
    (hrefs : ValidRefs refs)
    (hof : ∀ {s pos}, R s pos → ∃ rs cur, s = mk rs cur ∧ ListAt refs rs cur pos)
    (hto : ∀ {rs cur pos}, ListAt refs rs cur pos → R (mk rs cur) pos)
    (hat : ∀ {rs cur}, P.atRef (mk rs cur) = cur)
    (hnext : ∀ {y rs cur}, y ∈ refs → P.next (mk (y :: rs) cur) = some (true, mk rs y))
    (hend : ∀ cur, ∃ cur', P.next (mk [] cur) = some (false, mk [] cur') ∧ (cur' = 0 ∨ cur' = cur))
    (hstay : ∀ {rs cur v}, v ≤ cur → P.seek (mk rs cur) v = some (true, mk rs cur))
    (hseek : ∀ {rs cur v i}, rs ⊆ refs → ok v → cur < v →
      i = BinarySearch.search rs.length (fun i => v ≤ rs.getD i 0) →
      P.seek (mk rs cur) v = some (rs[i]?.elim (false, mk [] cur) (true, mk (rs.drop (i + 1)) ·))) :
    IsCursor P {x | x ∈ refs} {x | x ∈ refs} ok R where
  sub := subset_rfl
  bounds := hrefs.bounds
  at_eq hs _ := by
    obtain ⟨rs, cur, rfl, h⟩ := hof hs
    exact hat.trans h.1
  mem hs := by
    obtain ⟨rs, cur, rfl, h⟩ := hof hs
    exact h.2.1
  next_alive hs := by
    obtain ⟨rs, cur, rfl, h⟩ := hof hs
    obtain rfl := h.1
    cases rs with
    | nil =>
      obtain ⟨cur', heq, hcur⟩ := hend cur
      refine .inr ⟨h.le_of_nil, _, heq, hto ⟨rfl, ?_⟩⟩
      obtain rfl | rfl := hcur
      · exact .inl rfl
      · exact h.2.1.imp_right fun hmem => ⟨hmem, le_rfl, Nat.lt_succ_self _⟩
    | cons y rs =>
      obtain ⟨hleast, hat⟩ := h.next_cons
      exact .inl ⟨y, _, hleast, hnext hleast.1.1, hto hat⟩
  seek_alive hs _ hok := by
    obtain ⟨rs, cur, rfl, h⟩ := hof hs
    obtain rfl := h.1
    obtain hle | hlt := le_or_gt _ cur
    · exact .inl ⟨hle, _, hstay hle, hto h⟩
    have hcall := hseek h.subset hok hlt rfl
    rcases h.seek hlt rfl with ⟨y, hy, hleast, hat⟩ | ⟨hnone, hall, hdead⟩
    · rw [hy] at hcall
      exact .inr (.inl ⟨hlt, y, _, hleast, hcall, hto hat⟩)
    · rw [hnone] at hcall
      exact .inr (.inr ⟨hlt, hall, _, hcall, hto hdead⟩)
  next_dead hs := by
    obtain ⟨rs, cur, rfl, h⟩ := hof hs
    obtain rfl := h.1
    obtain ⟨cur', heq, rfl | rfl⟩ := hend cur
    · exact ⟨_, heq, hto ⟨rfl, .inl rfl⟩⟩
    · exact ⟨_, heq, hto h⟩
  seek_dead hs hv hok := by
    obtain ⟨rs, cur, rfl, h⟩ := hof hs
    obtain rfl := h.1
    obtain hle | hlt := le_or_gt _ cur
    · obtain ⟨hmem, hl, hb, h'⟩ := h.stay_dead hv hle
      exact .inr ⟨cur, _, hstay hle, hat, hmem, hl, hle, hb, hto h'⟩
    · exact .inl ⟨_, hseek (nil_subset _) hok hlt rfl, hto h.mono_dead⟩

lemma listPostings_isCursor (hrefs : ValidRefs refs) :
    IsCursor listPostings {x | x ∈ refs} {x | x ∈ refs} (fun _ => True) fun it pos =>
      ListAt refs it.list it.cur pos := by
  refine isCursor_of_list .mk hrefs (fun h => ⟨_, _, rfl, h⟩) id rfl (fun _ => rfl)
    (fun _ => ⟨0, rfl, .inl rfl⟩) (fun hle => by simp [hle]) fun {rs cur v i} _ _ hlt hi => ?_
  cases rs with
  | nil => simp [hlt.not_ge]
  | cons x rs =>
    simp only [listPostings, ListPostings.seek, if_neg hlt.not_ge, not_lt, ← hi]
    cases (x :: rs)[i]? <;> rfl

/-! ### Lists in the index file -/

lemma length_bigEndianBytes (rs : List ℕ) : (bigEndianBytes rs).length = 4 * rs.length := by
  induction rs with
  | nil => rfl
  | cons x rs ih =>
    rw [bigEndianBytes, flatMap_cons, length_append, ← bigEndianBytes, ih]
    simp
    omega

lemma drop_bigEndianBytes (rs : List ℕ) (i : ℕ) :
    (bigEndianBytes rs).drop (i * 4) = bigEndianBytes (rs.drop i) := by
  induction i generalizing rs with
  | zero => simp
  | succ i ih =>
    cases rs with
    | nil => simp [bigEndianBytes]
    | cons x rs =>
      rw [show (i + 1) * 4 = 4 + i * 4 by ring, ← drop_drop, drop_succ_cons, ← ih rs]
      rfl

lemma bigEndianUint32_bytes {x : ℕ} (hx : x < 2 ^ 32) (rs : List ℕ) :
    bigEndianUint32 (bigEndianBytes (x :: rs)) = x := by
  have htake : (bigEndianBytes (x :: rs)).take 4 = [BitVec.ofNat 8 (x / 2 ^ 24),
      BitVec.ofNat 8 (x / 2 ^ 16), BitVec.ofNat 8 (x / 2 ^ 8), BitVec.ofNat 8 x] := rfl
  rw [bigEndianUint32, htake]
  simp [ofBytes]
  omega

/-- The bytes ahead are those of the references ahead. -/
def BigEndianAt (refs : List ℕ) (it : BigEndianPostings) (pos : Pos) : Prop :=
  ∃ rs, it.list = bigEndianBytes rs ∧ rs ⊆ refs ∧ ListAt refs rs it.cur pos

/-- The search through the bytes, for a value of less than 32 bits. -/
lemma bigEndian_search (hrs : ∀ x ∈ rs, x < 2 ^ 32) (hv : v < 2 ^ 32) :
    (BinarySearch.search rs.length fun i =>
        bigEndianUint32 ((bigEndianBytes rs).drop (i * 4)) ≥ v % 2 ^ 32) =
      BinarySearch.search rs.length fun i => v ≤ rs.getD i 0 := by
  refine BinarySearch.search_congr fun i hi => ?_
  rw [drop_bigEndianBytes, drop_eq_getElem_cons hi,
    bigEndianUint32_bytes (hrs _ (getElem_mem hi)), Nat.mod_eq_of_lt hv,
    getD_eq_getElem _ _ hi]

lemma bigEndianPostings_isCursor (hrefs : ValidRefs refs) (h32 : ∀ x ∈ refs, x < 2 ^ 32) :
    IsCursor bigEndianPostings {x | x ∈ refs} {x | x ∈ refs} (fun v => v < 2 ^ 32)
      (BigEndianAt refs) := by
  refine isCursor_of_list (fun rs => .mk (bigEndianBytes rs)) hrefs ?_
    (fun h => ⟨_, rfl, h.subset, h⟩) rfl (fun {y rs cur} hmem => ?_)
      (fun cur => ⟨cur, rfl, .inr rfl⟩)
    (fun hle => by simp [hle]) fun {rs cur v i} hsub hok hlt hi => ?_
  · rintro ⟨_, cur⟩ pos ⟨rs, rfl, -, h⟩
    exact ⟨rs, cur, rfl, h⟩
  · have hy := bigEndianUint32_bytes (h32 y hmem) rs
    simp only [bigEndianPostings, BigEndianPostings.next, length_bigEndianBytes, hy]
    rw [if_pos (by simp), ← Nat.one_mul 4, drop_bigEndianBytes]
    rfl
  have hnum : 4 * rs.length / 4 = rs.length := by omega
  have hsearch := bigEndian_search (fun x hx => h32 x (hsub hx)) hok
  simp only [bigEndianPostings, seek, if_neg hlt.not_ge, length_bigEndianBytes, hnum, hsearch,
    ← hi]
  split_ifs with hi
  · rw [← Nat.succ_mul, drop_bigEndianBytes, drop_bigEndianBytes, drop_eq_getElem_cons hi,
      bigEndianUint32_bytes (h32 _ (hsub (getElem_mem hi))), getElem?_eq_getElem hi]
    rfl
  · rw [getElem?_eq_none (not_lt.1 hi)]
    rfl

end Lists

end Prometheus.Index
