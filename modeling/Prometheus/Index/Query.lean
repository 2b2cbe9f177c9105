import Prometheus.Index.Intersect
import Prometheus.Index.Merge
import Prometheus.Index.Refusal
import Prometheus.Index.Without

/-!
# Queries are cursors over their results

Whatever calls are made on the iterator of a query, it moves like a cursor over the set-theoretic
result of the query, as long as no list of the index file is sought for more than 32 bits
(`query_follows`). The `Seek` of these lists looks for the value it is given cut to 32 bits; and
`Intersect` seeks its iterators for the references of the others, `Without` its remove list for
those of the full list.

`SeeksFit` says this of a run, step by step: the same calls on the same query go through over lists
that refuse a larger value. What such a run returns is returned over the lists of the code, and over
lists that are cursors (`Query.runOver_extends`). By induction on the query the iterator over
cursors is a cursor (`Query.build_cursor`), which moves with every call as it should
(`IsCursor.call`). If all references and all values that are sought have 32 bits, so have those that
the lists are sought for (`seeksFit_of_lt`).
-/

namespace Prometheus.Index

open Query Set

/-! ### Queries -/

namespace Query

/-- The references in the lists of a query. -/
def refs : Query → Set ℕ
  | .list refs => {x | x ∈ refs}
  | .bigEndian refs => {x | x ∈ refs}
  | .intersect _ its => {x | ∃ i, x ∈ (its i).refs}
  | .merge _ its => {x | ∃ i, x ∈ (its i).refs}
  | .without full drop => full.refs ∪ drop.refs

/-- The lists are strictly increasing lists of references, of 32 bits in the index file. -/
def Valid : Query → Prop
  | .list refs => ValidRefs refs
  | .bigEndian refs => ValidRefs refs ∧ ∀ x ∈ refs, x < 2 ^ 32
  | .intersect _ its => ∀ i, (its i).Valid
  | .merge _ its => ∀ i, (its i).Valid
  | .without full drop => full.Valid ∧ drop.Valid

/-- The number of arguments in a query. -/
def width : Query → ℕ
  | .list _ => 0
  | .bigEndian _ => 0
  | .intersect n its => n + ∑ i, (its i).width
  | .merge n its => n + ∑ i, (its i).width
  | .without full drop => full.width + drop.width

end Query

/-! ### What the constructors return -/

section Build

variable {be : Postings BigEndianPostings} {tree : ∀ n, LoserTree (n + 2)} {fuel : ℕ}

/-- The iterator of `o` is a cursor over `L`, and a new one stands before the first element. -/
def Obj.CursorOver (be : Postings BigEndianPostings) (tree : ∀ n, LoserTree (n + 2)) (fuel : ℕ)
    (o : Obj) (L A : Set ℕ) (ok : ℕ → Prop) : Prop :=
  ∃ R s, IsCursor (o.postingsOver be tree fuel) L A ok R ∧ o.newOver be tree fuel = some s ∧
    R s (.alive 0)

abbrev Obj.Cursor (tree : ∀ n, LoserTree (n + 2)) (fuel : ℕ) (o : Obj) (L A : Set ℕ)
    (ok : ℕ → Prop) : Prop :=
  o.CursorOver bigEndianPostings tree fuel L A ok

lemma IsCursor.mono {S : Type} {P : Postings S} {L A A' : Set ℕ} {ok ok' : ℕ → Prop}
    {R : S → Pos → Prop} (h : IsCursor P L A ok R) (hA : A ⊆ A')
    (hbounds : ∀ a ∈ A', 1 ≤ a ∧ a < 2 ^ 64 - 1) (hok : ∀ v, ok' v → ok v) :
    IsCursor P L A' ok' R where
  __ := h
  sub := h.sub.trans hA
  bounds := hbounds
  seek_alive hs hv hok' := h.seek_alive hs hv (hok _ hok')
  seek_dead hs hv hok' :=
    (h.seek_dead hs hv (hok _ hok')).imp_right fun ⟨x, s', hseek, hat, hx, hrest⟩ =>
      ⟨x, s', hseek, hat, hA hx, hrest⟩

section

variable {o : Obj} {L L' A A' : Set ℕ} {ok ok' : ℕ → Prop} (h : o.CursorOver be tree fuel L A ok)
include h

lemma Obj.CursorOver.mono (hA : A ⊆ A') (hbounds : ∀ a ∈ A', 1 ≤ a ∧ a < 2 ^ 64 - 1)
    (hok : ∀ v, ok' v → ok v) : o.CursorOver be tree fuel L A' ok' := by
  obtain ⟨R, s, hcursor, hnew, hs⟩ := h
  exact ⟨R, s, hcursor.mono hA hbounds hok, hnew, hs⟩

lemma Obj.CursorOver.congr (hL : ∀ x, x ∈ L' ↔ x ∈ L) : o.CursorOver be tree fuel L' A ok :=
  ext hL ▸ h

lemma Obj.CursorOver.bounds : ∀ a ∈ A, 1 ≤ a ∧ a < 2 ^ 64 - 1 := by
  obtain ⟨R, s, hcursor, -⟩ := h
  exact hcursor.bounds

/-- What is known to be empty has no elements. -/
lemma Obj.CursorOver.eq_empty (hempty : o.isEmpty = true) : L = ∅ := by
  obtain ⟨R, s, hcursor, -, hs⟩ := h
  cases o with
  | empty =>
    rcases hcursor.next_alive hs with ⟨c, s', -, hnext, -⟩ | ⟨hall, -⟩
    · cases hnext
    refine eq_empty_of_forall_notMem fun x hx => ?_
    have hle := hall x hx
    have hpos := (hcursor.bounds x (hcursor.sub hx)).1
    omega
  | _ => cases hempty

end

lemma empty_cursor {L A : Set ℕ} {ok : ℕ → Prop} (hL : ∀ x, x ∉ L)
    (hbounds : ∀ a ∈ A, 1 ≤ a ∧ a < 2 ^ 64 - 1) : Obj.empty.CursorOver be tree fuel L A ok := by
  rw [eq_empty_of_forall_notMem hL]
  exact ⟨_, (), emptyPostings_isCursor.mono (empty_subset _) hbounds fun _ _ => trivial, rfl, rfl⟩

lemma sequenceFin_eq_some {n : ℕ} {S : Fin n → Type} {f : ∀ i, Option (S i)} {s : ∀ i, S i}
    (h : ∀ i, f i = some (s i)) : sequenceFin f = some s := by
  have hsome : ∀ i, (f i).isSome := fun i => by simp [h i]
  rw [sequenceFin, dif_pos hsome]
  refine congrArg some (funext fun i => ?_)
  simp [h i]

section Combinators

variable {n : ℕ} {its : Fin n → Obj} {L A : Fin n → Set ℕ} {ok : Fin n → ℕ → Prop}

section

variable (hits : ∀ i, (its i).CursorOver be tree fuel (L i) (A i) (ok i))
include hits

lemma bounds_of_cursors : ∀ a ∈ {x | ∃ i, x ∈ A i}, 1 ≤ a ∧ a < 2 ^ 64 - 1 := by
  rintro a ⟨i, ha⟩
  exact (hits i).bounds a ha

lemma mkIntersect_cursor
    (hA : ∀ i j, ∀ a ∈ A j, ok i a) (hfuel : 2 ^ 64 < fuel) :
    (mkIntersect n its).CursorOver be tree fuel {x | 0 < n ∧ ∀ i, x ∈ L i} {x | ∃ i, x ∈ A i}
      fun v => ∀ i, ok i v := by
  have hbounds := bounds_of_cursors hits
  match n with
  | 0 => exact empty_cursor (by simp) hbounds
  | 1 =>
    exact ((hits 0).congr (by simp [Fin.forall_fin_one])).mono (fun x hx => ⟨0, hx⟩) hbounds
      fun v hv => hv 0
  | n + 2 =>
    rw [mkIntersect]
    split_ifs with hempty
    · -- One of the iterators is known to be empty.
      obtain ⟨i, -, hi⟩ := List.any_eq_true.1 hempty
      refine empty_cursor (fun x hx => ?_) hbounds
      have hxi := hx.2 i
      rwa [(hits i).eq_empty hi] at hxi
    choose R s hcursor hnew hs using hits
    have hL : {x | 0 < n + 2 ∧ ∀ i, x ∈ L i} = {x | ∀ i, x ∈ L i} := by simp
    rw [hL]
    refine ⟨_, ⟨s, 0⟩, intersectPostings_isCursor hcursor hA hfuel, ?_, rfl, hs⟩
    rw [Obj.newOver, sequenceFin_eq_some hnew]
    rfl

lemma mkMerge_cursor
    (hfuel : n < fuel) :
    (mkMerge n its).CursorOver be tree fuel {x | ∃ i, x ∈ L i} {x | ∃ i, x ∈ A i}
      fun v => ∀ i, ok i v := by
  have hbounds := bounds_of_cursors hits
  match n with
  | 0 => exact empty_cursor (by simp) hbounds
  | 1 =>
    exact ((hits 0).congr (by simp [Fin.exists_fin_one])).mono (fun x hx => ⟨0, hx⟩) hbounds
      fun v hv => hv 0
  | n + 2 =>
    choose R s hcursor hnew hs using hits
    obtain ⟨it, hmerged, hstands⟩ : ∃ it, MergedPostings.new (tree n) _ s = some it ∧
        MergedPostings.Stands L R it (.alive 0) := MergedPostings.new_spec hcursor hs
    refine ⟨_, it, mergedPostings_isCursor (tree n) hcursor hfuel, ?_, hstands⟩
    change (sequenceFin _).bind _ = _
    rw [sequenceFin_eq_some hnew]
    exact hmerged

end

end Combinators

lemma mkWithout_cursor {full drop : Obj} {Lf Af Lr Ar : Set ℕ} {okf okr : ℕ → Prop}
    (hf : full.CursorOver be tree fuel Lf Af okf) (hr : drop.CursorOver be tree fuel Lr Ar okr)
    (hA : ∀ a ∈ Af, okr a) (hfuel : 2 ^ 65 + 1 < fuel) :
    (mkWithout full drop).CursorOver be tree fuel (Lf \ Lr) Af fun v => okf v ∧ okr v := by
  rw [mkWithout]
  split_ifs with hfull hdrop
  · rw [hf.eq_empty hfull, empty_sdiff]
    exact empty_cursor (notMem_empty) hf.bounds
  · rw [hr.eq_empty hdrop, sdiff_empty]
    exact hf.mono subset_rfl hf.bounds fun v hv => hv.1
  obtain ⟨Rf, sf, hcf, hnewf, hsf⟩ := hf
  obtain ⟨Rr, sr, hcr, hnewr, hsr⟩ := hr
  refine ⟨_, ⟨sf, sr, 0, false, false, false⟩, removedPostings_isCursor hcf hcr hA hfuel, ?_, rfl,
    rfl, hsf, hsr⟩
  rw [Obj.newOver, hnewf, hnewr]
  rfl

/-- The iterator of a query, over lists of the index file that are cursors for the `ok` values,
which all references are. -/
lemma Query.build_cursor {ok : ℕ → Prop} (hbe : ∀ {refs}, ValidRefs refs →
    (∀ x ∈ refs, x < 2 ^ 32) →
      IsCursor be {x | x ∈ refs} {x | x ∈ refs} ok (BigEndianAt refs))
    (q : Query) (hvalid : q.Valid) (hok : ∀ a ∈ q.refs, ok a) (hfuel : 2 ^ 66 + q.width < fuel) :
    q.build.CursorOver be tree fuel q.denote q.refs ok := by
  induction q with
  | list refs =>
    have hcursor : IsCursor listPostings _ _ ok _ :=
      (listPostings_isCursor hvalid).mono subset_rfl hvalid.bounds fun _ _ => trivial
    exact ⟨_, ⟨refs, 0⟩, hcursor, rfl, ListAt.fresh hvalid⟩
  | bigEndian refs =>
    exact ⟨_, ⟨bigEndianBytes refs, 0⟩, hbe hvalid.1 hvalid.2, rfl, refs, rfl, List.Subset.refl _,
      ListAt.fresh hvalid.1⟩
  | intersect n its ih =>
    have hits := fun i => ih i (hvalid i) (fun a ha => hok a ⟨i, ha⟩) (by
      have := Finset.single_le_sum (fun j _ => Nat.zero_le (its j).width) (Finset.mem_univ i)
      rw [width] at hfuel
      omega)
    exact (mkIntersect_cursor hits (fun _ j a ha => hok a ⟨j, ha⟩) (by omega)).mono subset_rfl
      (bounds_of_cursors hits) fun v hv _ => hv
  | merge n its ih =>
    have hits := fun i => ih i (hvalid i) (fun a ha => hok a ⟨i, ha⟩) (by
      have := Finset.single_le_sum (fun j _ => Nat.zero_le (its j).width) (Finset.mem_univ i)
      rw [width] at hfuel
      omega)
    exact (mkMerge_cursor hits (by rw [width] at hfuel; omega)).mono subset_rfl
      (bounds_of_cursors hits) fun v hv _ => hv
  | without full drop ihf ihd =>
    rw [width] at hfuel
    have hf := ihf hvalid.1 (fun a ha => hok a (.inl ha)) (by omega)
    have hr := ihd hvalid.2 (fun a ha => hok a (.inr ha)) (by omega)
    refine (mkWithout_cursor hf hr (fun a ha => hok a (.inl ha)) (by omega)).mono
      subset_union_left ?_
      fun v hv => ⟨hv, hv⟩
    rintro a (ha | ha)
    · exact hf.bounds a ha
    · exact hr.bounds a ha

end Build

/-! ### Runs -/

section Run

variable {S : Type} {P : Postings S} {L A : Set ℕ} {ok : ℕ → Prop} {R : S → Pos → Prop} {s : S}
  {p : ℕ}

/-- The element an iterator is at, if any. -/
def shown (p : ℕ) : Option ℕ :=
  if p = 0 then none else some p

lemma shown_of_mem (h : IsCursor P L A ok R) {c : ℕ} (hc : c ∈ L) : shown c = some c :=
  if_neg (Nat.one_le_iff_ne_zero.1 (h.bounds c (h.sub hc)).1)

lemma forall_shown_lt {x : ℕ} (hx : 1 ≤ x) : (∀ q ∈ shown p, q < x) ↔ p < x := by
  rcases eq_or_ne p 0 with rfl | hp
  · simp [shown]
    exact hx
  · simp [shown, hp]

/-- One call. -/
lemma IsCursor.call (h : IsCursor P L A ok R) (hs : R s (.alive p)) (op : Cursor.Call ℕ)
    (hop : ∀ v, op = .seek v → 1 ≤ v ∧ ok v) :
    (∃ c s', Cursor.Target L (shown p) op (some c) ∧ P.call s op = some (true, s') ∧
        P.atRef s' = c ∧ R s' (.alive c) ∧ shown c = some c) ∨
      Cursor.Target L (shown p) op none ∧ ∃ s', P.call s op = some (false, s') := by
  have hpos : ∀ x ∈ L, 1 ≤ x := fun x hx => (h.bounds x (h.sub hx)).1
  have hat : ∀ {c s'}, c ∈ L → R s' (.alive c) → P.atRef s' = c := fun hc hs' =>
    h.at_eq hs' (Nat.one_le_iff_ne_zero.1 (hpos _ hc))
  cases op with
  | next =>
    rcases h.next_alive hs with ⟨c, s', hc, hnext, hs'⟩ | ⟨hall, s', hnext, -⟩
    · refine .inl ⟨c, s', ⟨⟨hc.1.1, ?_⟩, fun x hx => ?_⟩, hnext, hat hc.1.1 hs', hs',
        shown_of_mem h hc.1.1⟩
      · exact (forall_shown_lt (hpos c hc.1.1)).2 hc.1.2
      · exact hc.2 ⟨hx.1, (forall_shown_lt (hpos x hx.1)).1 hx.2⟩
    refine .inr ⟨fun x hx => ?_, s', hnext⟩
    have hle := hall x hx
    have hx := hpos x hx
    exact ⟨p, if_neg (Nat.one_le_iff_ne_zero.1 (hx.trans hle)), hle⟩
  | seek v =>
    obtain ⟨hv, hok⟩ := hop v rfl
    have hlt : p < v → ∀ q ∈ shown p, q < v := (forall_shown_lt hv).2
    rcases h.seek_alive hs hv hok with ⟨hle, s', hseek, hs'⟩ | ⟨hpv, c, s', hc, hseek, hs'⟩ |
      ⟨hpv, hall, s', hseek, -⟩
    · have hp : shown p = some p := if_neg (Nat.one_le_iff_ne_zero.1 (hv.trans hle))
      have hmem := (h.mem hs).resolve_left (Nat.one_le_iff_ne_zero.1 (hv.trans hle))
      exact .inl ⟨p, s', .inl ⟨p, hp, hle, rfl⟩, hseek, hat hmem hs', hs', hp⟩
    · exact .inl ⟨c, s', .inr ⟨hlt hpv, hc⟩, hseek, hat hc.1.1 hs', hs', shown_of_mem h hc.1.1⟩
    · exact .inr ⟨.inr ⟨hlt hpv, hall⟩, s', hseek⟩

/-- Calls on a cursor, up to the first false. -/
lemma IsCursor.run_follows (h : IsCursor P L A ok R) (ops : List (Cursor.Call ℕ))
    (hops : ∀ v, .seek v ∈ ops → 1 ≤ v ∧ ok v) (hs : R s (.alive p)) :
    ∃ outs, P.run s ops = some outs ∧ Cursor.Follows L (shown p) ops outs := by
  induction ops generalizing s p with
  | nil => exact ⟨[], rfl, rfl⟩
  | cons op ops ih =>
    rcases h.call hs op fun v hv => hops v (by simp [hv]) with
      ⟨c, s', htarget, hcall, hat, hs', hc⟩ | ⟨htarget, s', hcall⟩
    · obtain ⟨outs, hrun, hfollows⟩ := ih (fun v hv => hops v (List.mem_cons_of_mem _ hv)) hs'
      exact ⟨some c :: outs, by simp [Postings.run, hcall, hrun, hat], htarget, hc ▸ hfollows⟩
    · exact ⟨[none], by simp [Postings.run, hcall], htarget, rfl⟩

end Run

section Follows

variable (tree : ∀ n, LoserTree (n + 2)) (q : Query) (ops : List (Cursor.Call ℕ))
  (fuel : ℕ)

/-- Over lists of the index file that are cursors, every run of a query follows its result. -/
lemma runOver_follows {be : Postings BigEndianPostings} {ok : ℕ → Prop}
    (hbe : ∀ {refs}, ValidRefs refs → (∀ x ∈ refs, x < 2 ^ 32) →
      IsCursor be {x | x ∈ refs} {x | x ∈ refs} ok (BigEndianAt refs))
    (hvalid : q.Valid) (hok : ∀ a ∈ q.refs, ok a) (hops : ∀ v, .seek v ∈ ops → 1 ≤ v ∧ ok v)
    (hfuel : 2 ^ 66 + q.width < fuel) :
    ∃ outs, q.runOver be tree fuel ops = some outs ∧ Cursor.Follows q.denote none ops outs := by
  obtain ⟨R, s, hcursor, hnew, hs⟩ : q.build.CursorOver be tree fuel q.denote q.refs ok :=
    q.build_cursor hbe hvalid hok hfuel
  obtain ⟨outs, hrun, hfollows⟩ := hcursor.run_follows ops hops hs
  exact ⟨outs, by simp [runOver, hnew, hrun], hfollows⟩

/-- No list of the index file is sought for more than 32 bits: the calls go through where such a
`Seek` is refused. -/
def Query.SeeksFit : Prop :=
  (q.runOver refusingPostings tree fuel ops).isSome

instance : Decidable (q.SeeksFit tree ops fuel) :=
  inferInstanceAs (Decidable (_ = true))

/-- In a query over references of 32 bits, no list is sought for more. -/
lemma seeksFit_of_lt (hvalid : q.Valid) (hrefs : ∀ a ∈ q.refs, a < 2 ^ 32)
    (hops : ∀ v, .seek v ∈ ops → 1 ≤ v ∧ v < 2 ^ 32) (hfuel : 2 ^ 66 + q.width < fuel) :
    q.SeeksFit tree ops fuel := by
  obtain ⟨outs, hrun, -⟩ := runOver_follows tree q ops fuel refusingPostings_isCursor hvalid hrefs
    hops hfuel
  rw [SeeksFit, hrun]
  rfl

/-- **Queries are cursors**: as long as no list of the index file is sought for more than 32 bits,
every sequence of calls moves through the result of the query. -/
theorem query_follows (hvalid : q.Valid) (hops : ∀ v, .seek v ∈ ops → 1 ≤ v)
    (hfuel : 2 ^ 66 + q.width < fuel) (hfit : q.SeeksFit tree ops fuel) :
    ∃ outs, q.run tree fuel ops = some outs ∧ Cursor.Follows q.denote none ops outs := by
  obtain ⟨outs, hrefusing⟩ := Option.isSome_iff_exists.1 hfit
  obtain ⟨outs', hexact, hfollows⟩ := runOver_follows tree q ops fuel exactPostings_isCursor hvalid
    (fun _ _ => trivial) (fun v hv => ⟨hops v hv, trivial⟩) hfuel
  -- The lists of the code and those that are cursors return what the ones that refuse return.
  have hsame := q.runOver_extends refusing_below_exact tree fuel ops _ hrefusing
  obtain rfl : outs = outs' := Option.some.inj (hsame.symm.trans hexact)
  exact ⟨outs, q.runOver_extends refusing_below_bigEndian tree fuel ops _ hrefusing, hfollows⟩

end Follows

/-! ### A tree -/

/-- The tree that finds the winner by comparing all sequences. -/
def argminTree (n : ℕ) : LoserTree (n + 2) where
  T := Fin (n + 2) → Option ℕ
  playGames nodes := nodes
  replayGames _ nodes := nodes
  winner t := ((List.finRange (n + 2)).argmin fun i => (t i).elim (⊤ : WithTop ℕ) (↑)).getD 0
  Valid t nodes := t = nodes
  playGames_valid _ := rfl
  replayGames_valid _ _ := rfl
  winner_le := by
    rintro t _ rfl j v hj
    obtain ⟨w, hw⟩ : ∃ w, (List.finRange (n + 2)).argmin
        (fun i => (t i).elim (⊤ : WithTop ℕ) (↑)) = some w := by
      refine Option.ne_none_iff_exists'.1 fun hnone => ?_
      have := List.argmin_eq_none.1 hnone
      simp at this
    have hle := List.le_of_mem_argmin (List.mem_finRange j) hw
    rw [hw, Option.getD_some]
    cases hv : t w with
    | none => simp [hj, hv] at hle
    | some x => exact ⟨x, rfl, by simpa [hj, hv] using hle⟩

/-- The list of the index file is sought for 3 instead of 4294967299, finds 7, and the intersection
takes that for agreement. -/
theorem intersect_bigEndian_seek :
    let q := intersect 2 ![.list [4294967299], .bigEndian [5, 7]]
    q.Valid ∧ ∀ fuel, q.run argminTree (fuel + 1) [.next] = some [some 4294967299] ∧
      ¬Cursor.Follows q.denote none [.next] [some 4294967299] := by
  refine ⟨?_, fun fuel => ⟨by with_unfolding_all rfl, fun h => ?_⟩⟩
  · intro i
    match i with
    | 0 => exact ⟨by simp, by simp⟩
    | 1 => exact ⟨⟨by simp, by simp⟩, by simp⟩
  · have hmem := h.1.1.1.2 1
    simp [denote] at hmem

/-- A query with large references and a list of the index file, which is never sought for them. -/
theorem query_follows_mixed :
    let q := without (.merge 2 ![.list [2, 4294967299],
      .intersect 2 ![.bigEndian [5], .list [5, 4294967299]]]) (.list [9])
    q.SeeksFit argminTree [.next, .seek 3, .next, .next] (2 ^ 67) ∧
      ∃ outs, q.run argminTree (2 ^ 67) [.next, .seek 3, .next, .next] = some outs ∧
        Cursor.Follows q.denote none [.next, .seek 3, .next, .next] outs := by
  intro q
  have hfit : q.SeeksFit argminTree [.next, .seek 3, .next, .next] (2 ^ 67) := by
    with_unfolding_all rfl
  refine ⟨hfit, query_follows argminTree q _ _ ?_ ?_ (by simp [q, width, Fin.sum_univ_two]) hfit⟩
  · refine ⟨fun i => ?_, by simp, by simp⟩
    match i with
    | 0 => exact ⟨by simp, by simp⟩
    | 1 =>
      intro j
      match j with
      | 0 => exact ⟨⟨by simp, by simp⟩, by simp⟩
      | 1 => exact ⟨by simp, by simp⟩
  · intro v hv
    obtain rfl : v = 3 := by simpa using hv
    omega

end Prometheus.Index
