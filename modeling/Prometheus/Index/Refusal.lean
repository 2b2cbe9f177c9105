import Prometheus.Index.PostingsCursor

/-!
# Iterators that refuse calls

Two iterators over the same states can differ in that one of them has no result where the other one
has some (`Postings.Below`). The combinators only look at what their iterators return. So whatever a
combinator returns over iterators that refuse some calls, it returns over those that refuse fewer,
and the same is true of whole queries (`Query.runOver_extends`).

The lists of the index file come in three kinds. `bigEndianPostings`, the one of the code, cuts the
value it is sought for to 32 bits. `refusingPostings` refuses to be sought for more than 32 bits, so
a query has a result over these lists if no `Seek` of its run is cut. `exactPostings` returns what a
cursor would (`exactPostings_isCursor`). The first is below neither of the others, but the second is
below both (`refusing_below_bigEndian`, `refusing_below_exact`): a run without cuts is one of a
query over cursors.
-/

namespace Prometheus.Index

open List

/-! ### Results that extend others -/

/-- The second is the first, if the first is a result. -/
def Extends {α : Type} (x y : Option α) : Prop :=
  ∀ r, x = some r → y = some r

section Extends

variable {α β : Type} {x y x' y' : Option α}

lemma Extends.refl (x : Option α) : Extends x x := fun _ => id

lemma Extends.bind {f g : α → Option β} (h : Extends x y) (hfg : ∀ a, Extends (f a) (g a)) :
    Extends (x >>= f) (y >>= g) := by
  intro r hr
  obtain ⟨a, ha, hfa⟩ := Option.bind_eq_some_iff.1 hr
  exact Option.bind_eq_some_iff.2 ⟨a, h a ha, hfg a r hfa⟩

lemma Extends.map (h : Extends x y) (f : α → β) : Extends (x.map f) (y.map f) := by
  intro r hr
  obtain ⟨a, ha, hfa⟩ := Option.map_eq_some_iff.1 hr
  exact Option.map_eq_some_iff.2 ⟨a, h a ha, hfa⟩

lemma Extends.ite {p : Prop} [Decidable p] (h : Extends x y) (h' : Extends x' y') :
    Extends (if p then x else x') (if p then y else y') := by
  split
  · exact h
  · exact h'

lemma sequenceFin_extends {n : ℕ} {S : Fin n → Type} {f g : ∀ i, Option (S i)}
    (h : ∀ i, Extends (f i) (g i)) : Extends (sequenceFin f) (sequenceFin g) := by
  intro r hr
  unfold sequenceFin at hr
  split_ifs at hr with hsome
  obtain rfl := Option.some.inj hr
  have hg : ∀ i, g i = some ((f i).get (hsome i)) := fun i =>
    h i _ (Option.some_get (hsome i)).symm
  rw [sequenceFin, dif_pos fun i => by rw [hg i]; rfl]
  exact congrArg some (funext fun i => by simp [hg i])

end Extends

/-! ### Iterators below others -/

/-- What `P` returns, `Q` returns. -/
structure Postings.Below {S : Type} (P Q : Postings S) : Prop where
  next : ∀ s, Extends (P.next s) (Q.next s)
  seek : ∀ s v, Extends (P.seek s v) (Q.seek s v)
  at_eq : P.atRef = Q.atRef

lemma Postings.Below.refl {S : Type} (P : Postings S) : P.Below P :=
  ⟨fun _ => .refl _, fun _ _ => .refl _, rfl⟩

section Family

variable {n : ℕ} {S : Fin n → Type} {ps qs : ∀ i, Postings (S i)} (h : ∀ i, (ps i).Below (qs i))
include h

namespace IntersectPostings

lemma scan_extends (is : List (Fin n)) (it : IntersectPostings S) :
    Extends (scan ps is it) (scan qs is it) := by
  induction is generalizing it with
  | nil => exact .refl _
  | cons i is ih =>
    simp only [scan, (h i).at_eq]
    exact ((h i).seek _ _).bind fun r => .ite (.refl _) (.ite (.refl _) (ih _))

lemma doNext_extends (fuel : ℕ) (it : IntersectPostings S) :
    Extends (doNext ps fuel it) (doNext qs fuel it) := by
  induction fuel generalizing it with
  | zero => exact .refl _
  | succ fuel ih =>
    refine (scan_extends h _ it).bind fun r => ?_
    obtain ⟨_ | _ | _, it'⟩ := r
    · exact .refl _
    · exact ih it'
    · exact .refl _

lemma nextAll_extends (is : List (Fin n)) (it : IntersectPostings S) :
    Extends (nextAll ps is it) (nextAll qs is it) := by
  induction is generalizing it with
  | nil => exact .refl _
  | cons i is ih =>
    simp only [nextAll, (h i).at_eq]
    exact ((h i).next _).bind fun r => .ite (.refl _) (.ite (ih _) (ih _))

end IntersectPostings

lemma intersectPostings_below (fuel : ℕ) :
    (intersectPostings ps fuel).Below (intersectPostings qs fuel) where
  next it := (IntersectPostings.nextAll_extends h _ it).bind fun r => by
    obtain ⟨_ | _, it'⟩ := r
    · exact .refl _
    · exact IntersectPostings.doNext_extends h fuel it'
  seek it id := IntersectPostings.doNext_extends h fuel _
  at_eq := rfl

namespace MergedPostings

lemma moveNext_extends {T : Type} (it : MergedPostings S T) (i : Fin n) :
    Extends (it.moveNext ps i) (it.moveNext qs i) := by
  simp only [moveNext, (h i).at_eq]
  exact ((h i).next _).bind fun _ => .refl _

variable (tree : LoserTree n)

lemma treeNext_extends (it : MergedPostings S tree.T) :
    Extends (it.treeNext tree ps) (it.treeNext tree qs) := by
  unfold treeNext
  split
  · exact .refl _
  · exact .ite (.refl _) ((moveNext_extends h it _).bind fun _ => .refl _)

lemma next_extends (fuel : ℕ) (it : MergedPostings S tree.T) :
    Extends (next tree ps fuel it) (next tree qs fuel it) := by
  induction fuel generalizing it with
  | zero => exact .refl _
  | succ fuel ih =>
    refine (treeNext_extends h tree it).bind fun r => ?_
    obtain ⟨_ | _, it'⟩ := r
    · exact .refl _
    · exact .ite (.refl _) (ih it')

lemma seek_extends (fuel : ℕ) (it : MergedPostings S tree.T) (id : ℕ) :
    Extends (seek tree ps fuel it id) (seek tree qs fuel it id) := by
  induction fuel generalizing it with
  | zero => exact .refl _
  | succ fuel ih =>
    simp only [seek, (h _).at_eq]
    split
    · exact .refl _
    · exact .ite (((h _).seek _ _).bind fun r => ih _) (.refl _)

lemma new_extends (p : ∀ i, S i) : Extends (new tree ps p) (new tree qs p) := by
  have hfold : ∀ (is : List (Fin n)) (it : MergedPostings S tree.T),
      Extends (is.foldlM (fun it i => it.moveNext ps i) it)
        (is.foldlM (fun it i => it.moveNext qs i) it) := by
    intro is
    induction is with
    | nil => exact fun it => .refl _
    | cons i is ih =>
      intro it
      rw [foldlM_cons, foldlM_cons]
      exact (moveNext_extends h it i).bind ih
  exact hfold _ _

end MergedPostings

lemma mergedPostings_below (tree : LoserTree n) (fuel : ℕ) :
    (mergedPostings tree ps fuel).Below (mergedPostings tree qs fuel) where
  next := MergedPostings.next_extends h tree fuel
  seek := MergedPostings.seek_extends h tree fuel
  at_eq := rfl

end Family

section Difference

variable {F R : Type} {pf qf : Postings F} {pr qr : Postings R} (hf : pf.Below qf)
  (hr : pr.Below qr)
include hf

namespace RemovedPostings

lemma take_extends (rp : RemovedPostings F R) : Extends (rp.take pf) (rp.take qf) := by
  simp only [take, hf.at_eq]
  exact (hf.next _).bind fun _ => .refl _

include hr

lemma loop_extends (fuel : ℕ) (rp : RemovedPostings F R) :
    Extends (loop pf pr fuel rp) (loop qf qr fuel rp) := by
  induction fuel generalizing rp with
  | zero => exact .refl _
  | succ fuel ih =>
    simp only [loop, hf.at_eq, hr.at_eq]
    refine .ite (.refl _) (.ite (take_extends hf rp) (.ite (take_extends hf rp) (.ite ?_ ?_)))
    · exact (hr.seek _ _).bind fun _ => ih _
    · exact (hf.next _).bind fun _ => ih _

lemma next_extends (fuel : ℕ) (rp : RemovedPostings F R) :
    Extends (next pf pr fuel rp) (next qf qr fuel rp) :=
  .ite (loop_extends hf hr fuel rp)
    ((hf.next _).bind fun _ => (hr.next _).bind fun _ => loop_extends hf hr fuel _)

end RemovedPostings

include hr

lemma removedPostings_below (fuel : ℕ) :
    (removedPostings pf pr fuel).Below (removedPostings qf qr fuel) where
  next := RemovedPostings.next_extends hf hr fuel
  seek _ _ := .ite (.refl _)
    ((hf.seek _ _).bind fun _ => (hr.seek _ _).bind fun _ =>
      RemovedPostings.next_extends hf hr fuel _)
  at_eq := rfl

end Difference

/-! ### Queries -/

section Queries

variable {be be' : Postings BigEndianPostings} (h : be.Below be') (tree : ∀ n, LoserTree (n + 2))
  (fuel : ℕ)
include h

lemma Obj.postingsOver_below (o : Obj) :
    (o.postingsOver be tree fuel).Below (o.postingsOver be' tree fuel) := by
  induction o with
  | empty | list => exact .refl _
  | bigEndian => exact h
  | intersect n its ih => exact intersectPostings_below ih fuel
  | merged n its ih => exact mergedPostings_below ih (tree n) fuel
  | removed full remove ihf ihr => exact removedPostings_below ihf ihr fuel

lemma Obj.newOver_extends (o : Obj) :
    Extends (o.newOver be tree fuel) (o.newOver be' tree fuel) := by
  induction o with
  | empty | list | bigEndian => exact .refl _
  | intersect n its ih => exact (sequenceFin_extends ih).map _
  | merged n its ih =>
    exact (sequenceFin_extends ih).bind
      (MergedPostings.new_extends (fun i => (its i).postingsOver_below h tree fuel) (tree n))
  | removed full remove ihf ihr => exact ihf.bind fun _ => ihr.bind fun _ => .refl _

omit h in
lemma Postings.Below.run_extends {S : Type} {P Q : Postings S} (h : P.Below Q)
    (ops : List (Cursor.Call ℕ)) (s : S) : Extends (P.run s ops) (Q.run s ops) := by
  induction ops generalizing s with
  | nil => exact .refl _
  | cons op ops ih =>
    have hcall : Extends (P.call s op) (Q.call s op) := by
      cases op with
      | next => exact h.next s
      | seek v => exact h.seek s v
    refine hcall.bind fun r => ?_
    obtain ⟨_ | _, s'⟩ := r
    · exact .refl _
    · simp only [h.at_eq]
      exact (ih s').bind fun _ => .refl _

/-- Whatever a query returns over lists that refuse some calls, it returns over those that do not.
-/
lemma Query.runOver_extends (q : Query) (ops : List (Cursor.Call ℕ)) :
    Extends (q.runOver be tree fuel ops) (q.runOver be' tree fuel ops) :=
  (q.build.newOver_extends h tree fuel).bind
    ((q.build.postingsOver_below h tree fuel).run_extends ops)

end Queries

/-! ### Lists of the index file -/

/-- A list that is not sought for more than 32 bits. -/
def refusingPostings : Postings BigEndianPostings where
  next it := some it.next
  seek it x := if x < 2 ^ 32 then some (it.seek x) else none
  atRef it := it.cur

/-- A list in which nothing is found that has more than 32 bits. -/
def exactPostings : Postings BigEndianPostings where
  next it := some it.next
  seek it x := some (if it.cur ≥ x ∨ x < 2 ^ 32 then it.seek x else (false, ⟨[], it.cur⟩))
  atRef it := it.cur

lemma refusing_below_bigEndian : refusingPostings.Below bigEndianPostings where
  next _ := .refl _
  seek it x r hr := by
    obtain ⟨-, h⟩ := Option.ite_none_right_eq_some.1 hr
    exact h
  at_eq := rfl

lemma refusing_below_exact : refusingPostings.Below exactPostings where
  next _ := .refl _
  seek it x r hr := by
    obtain ⟨hx, h⟩ := Option.ite_none_right_eq_some.1 hr
    simpa only [exactPostings, if_pos (Or.inr hx)] using h
  at_eq := rfl

section Cursors

variable {refs : List ℕ} (hrefs : ValidRefs refs) (h32 : ∀ x ∈ refs, x < 2 ^ 32)
include hrefs h32

lemma refusingPostings_isCursor :
    IsCursor refusingPostings {x | x ∈ refs} {x | x ∈ refs} (fun v => v < 2 ^ 32)
      (BigEndianAt refs) := by
  have h := bigEndianPostings_isCursor hrefs h32
  have hseek : ∀ {s v}, v < 2 ^ 32 → refusingPostings.seek s v = bigEndianPostings.seek s v :=
    fun hv => if_pos hv
  exact
    { sub := h.sub
      bounds := h.bounds
      at_eq := h.at_eq
      mem := h.mem
      next_alive := h.next_alive
      seek_alive := fun hs hv hok => by simpa only [hseek hok] using h.seek_alive hs hv hok
      next_dead := h.next_dead
      seek_dead := fun hs hv hok => by
        rw [hseek hok]
        exact h.seek_dead hs hv hok }

/-- A list of 32-bit numbers is a cursor, whatever it is sought for. -/
lemma exactPostings_isCursor :
    IsCursor exactPostings {x | x ∈ refs} {x | x ∈ refs} (fun _ => True) (BigEndianAt refs) := by
  have h := refusingPostings_isCursor hrefs h32
  have hseek : ∀ {s v}, v < 2 ^ 32 → exactPostings.seek s v = refusingPostings.seek s v := by
    intro s v hv
    simp only [exactPostings, refusingPostings, if_pos hv, if_pos (Or.inr hv)]
  have hlarge : ∀ {s : BigEndianPostings} {v}, s.cur = 0 ∨ s.cur ∈ refs → 2 ^ 32 ≤ v →
      s.cur < v ∧ exactPostings.seek s v = some (false, ⟨[], s.cur⟩) := by
    intro s v hcur hv
    have hlt : s.cur < v := by
      rcases hcur with h0 | hmem
      · omega
      · exact (h32 _ hmem).trans_le hv
    exact ⟨hlt, congrArg some (if_neg (by omega))⟩
  exact
    { sub := h.sub
      bounds := h.bounds
      at_eq := h.at_eq
      mem := h.mem
      next_alive := h.next_alive
      seek_alive := by
        intro s p v hs hv _
        obtain hok | hge := lt_or_ge v (2 ^ 32)
        · rw [hseek hok]
          exact h.seek_alive hs hv hok
        obtain ⟨rs, -, -, rfl, hmem, -⟩ := hs
        obtain ⟨hlt, heq⟩ := hlarge hmem hge
        exact .inr (.inr ⟨hlt, fun x hx => (h32 x hx).trans_le hge, _, heq, [], rfl,
          nil_subset _, rfl,
          hmem.imp_right fun hmem => ⟨hmem, le_refl _, hlt⟩⟩)
      next_dead := h.next_dead
      seek_dead := by
        intro s l b v hs hv _
        obtain hok | hge := lt_or_ge v (2 ^ 32)
        · rw [hseek hok]
          exact h.seek_dead hs hv hok
        obtain ⟨rs, -, -, hat⟩ := hs
        obtain ⟨-, heq⟩ := hlarge (hat.2.imp_right And.left) hge
        exact .inl ⟨_, heq, [], rfl, nil_subset _, hat.mono_dead⟩ }

end Cursors

end Prometheus.Index
