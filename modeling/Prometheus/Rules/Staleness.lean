import Prometheus.Lib.Transition

/-!
# Staleness of rule results

`Group.Eval` of `rules/group.go`, one rule after the other. Every rule looks only at the series that
it has itself written the last time: those that it does not write any more get a stale marker. If
another rule has written such a series in the same evaluation, the storage rejects the marker. But
it also rejects the sample if the marker comes first.

The first rule that has something for a series decides what stands in the storage
(`appends_evalRules`), so that the markers are right exactly if no rule from which a series has gone
comes before all that write it now, and a rule that has written a series that is gone does not fail
(`Orderly`).

The storage holds what is appended at once. The samples of a rule have the time of the evaluation,
and the order in which `seriesInPreviousEval` is gone through is that of a list, which does not
matter.
-/

namespace Prometheus.Rules

open List

/-- What stands in the storage for a series at a time. -/
inductive Point (V : Type)
  | sample (v : V)
  | stale
deriving DecidableEq

/-- What stands for a series at a time, if there is something. -/
abbrev Storage (S V : Type) : Type :=
  S × ℤ → Option (Point V)

variable {S V : Type}

/-- For every series `s` the point `f s` is appended at a time. What stands there first stays. -/
def Appends (t : ℤ) (f : S → Option (Point V)) (st st' : Storage S V) : Prop :=
  ∀ x, st' x = if x.2 = t then (st x).or (f x.1) else st x

namespace Appends

variable {t : ℤ} {f g : S → Option (Point V)} {st st₁ st₂ : Storage S V}

lemma refl : Appends t (fun _ => none) st st := by
  intro x
  simp

lemma trans (h : Appends t f st st₁) (h' : Appends t g st₁ st₂) :
    Appends t (fun s => (f s).or (g s)) st st₂ := by
  intro x
  rw [h' x, h x]
  split_ifs
  · rw [Option.or_assoc]
  · rfl

lemma of_eq (h : Appends t f st st₁) (hfg : ∀ s, f s = g s) : Appends t g st st₁ :=
  funext hfg ▸ h

end Appends

/-! ### Rules and groups -/

/-- What a rule has written before, and the vector that it gives now unless it fails. -/
abbrev RuleEval (S V : Type) : Type :=
  List S × Option (List (S × V))

namespace RuleEval

/-- The rule gives a sample of the series. -/
def Produces (s : S) (r : RuleEval S V) : Prop :=
  ∃ vector, r.2 = some vector ∧ s ∈ vector.map Prod.fst

/-- The series has gone from the rule, which does not fail. -/
def Drops (s : S) (r : RuleEval S V) : Prop :=
  ∃ vector, r.2 = some vector ∧ s ∈ r.1 ∧ s ∉ vector.map Prod.fst

lemma not_produces_of_drops {s : S} {r : RuleEval S V} (h : r.Drops s) : ¬r.Produces s := by
  obtain ⟨vector, hr, -, hnot⟩ := h
  rintro ⟨_, hr', hmem⟩
  rw [hr] at hr'
  cases hr'
  exact hnot hmem

end RuleEval

/-- What a group keeps from one evaluation to the next, and the storage. -/
structure Group (S V : Type) where
  seriesInPreviousEval : List (List S)
  storage : Storage S V
  lastEvaluation : ℤ

/-- How long after the last evaluation it is, and what the rules give. -/
structure Evaluation (S V : Type) where
  delay : ℕ
  result : ℕ → Option (List (S × V))

namespace Group

/-- The group has not been evaluated, and nothing later than `start` is in the storage. -/
def init (rules : ℕ) (start : ℤ) (old : Storage S V) : Group S V where
  seriesInPreviousEval := List.replicate rules []
  storage := fun x => if x.2 ≤ start then old x else none
  lastEvaluation := start

variable (g : Group S V) (e : Evaluation S V)

def time : ℤ :=
  g.lastEvaluation + 1 + e.delay

def rules : List (RuleEval S V) :=
  g.seriesInPreviousEval.mapIdx fun i previous => (previous, e.result i)

lemma lastEvaluation_lt_time : g.lastEvaluation < g.time e := by
  rw [time]
  omega

variable {g e} in
/-- A rule that drops a series has written it. -/
lemma exists_previous {r : RuleEval S V} {s : S} (hr : r ∈ g.rules e)
    (h : r.Drops s) : ∃ previous ∈ g.seriesInPreviousEval, s ∈ previous := by
  obtain ⟨_, -, hs, -⟩ := h
  obtain ⟨i, hi, rfl⟩ := mem_mapIdx.1 hr
  exact ⟨_, getElem_mem hi, hs⟩

/-- Nothing later than the last evaluation is in the storage. -/
def Fresh (g : Group S V) : Prop :=
  ∀ x, g.lastEvaluation < x.2 → g.storage x = none

lemma fresh_init (rules : ℕ) (start : ℤ) (old : Storage S V) : (init rules start old).Fresh :=
  fun _ hx => if_neg (not_le.2 hx)

end Group

variable [DecidableEq S]

/-! ### The first rule decides -/

namespace RuleEval

/-- What the rule has for a series. -/
def point (s : S) (r : RuleEval S V) : Option (Point V) :=
  r.2.bind fun vector => ((vector.find? (·.1 = s)).map fun e => Point.sample e.2).or
    (if s ∈ r.1 then some .stale else none)

lemma point_cases (s : S) (r : RuleEval S V) :
    (∃ v, r.point s = some (.sample v)) ∧ r.Produces s ∨ r.point s = some .stale ∧ r.Drops s ∨
      r.point s = none ∧ ¬r.Produces s ∧ ¬r.Drops s := by
  obtain ⟨previous, result⟩ := r
  cases result with
  | none => exact .inr (.inr ⟨rfl, by simp [Produces], by simp [Drops]⟩)
  | some vector =>
    cases hfind : vector.find? (·.1 = s) with
    | some e => exact .inl ⟨⟨e.2, by simp [point, hfind]⟩, vector, rfl, by grind⟩
    | none =>
      have hnot : s ∉ vector.map Prod.fst := by grind
      by_cases hs : s ∈ previous
      · exact .inr (.inl ⟨by simp [point, hfind, hs], vector, rfl, hs, hnot⟩)
      refine .inr (.inr ⟨by simp [point, hfind, hs], ?_, ?_⟩)
      · rintro ⟨_, ⟨⟩, hmem⟩
        exact hnot hmem
      · rintro ⟨_, ⟨⟩, hmem, -⟩
        exact hs hmem

/-- A marker stands in the storage if a rule drops the series before any gives it. -/
lemma findSome?_eq_stale_iff {s : S} {rules : List (RuleEval S V)} :
    rules.findSome? (point s) = some .stale ↔
    ∃ before r after, rules = before ++ r :: after ∧ r.Drops s ∧ ∀ r' ∈ before, ¬r'.Produces s := by
  induction rules with
  | nil => simp
  | cons r rules ih =>
    rw [findSome?_cons]
    rcases point_cases s r with ⟨⟨v, hpoint⟩, hproduces⟩ | ⟨hpoint, hdrops⟩ | ⟨hpoint, hnot, hkeeps⟩
    · rw [hpoint]
      refine iff_of_false (by simp) ?_
      rintro ⟨before, r', after, heq, hdrops, hbefore⟩
      cases before with
      | nil => exact not_produces_of_drops ((cons.inj heq).1 ▸ hdrops) hproduces
      | cons r₁ before => exact hbefore r₁ mem_cons_self ((cons.inj heq).1 ▸ hproduces)
    · rw [hpoint]
      exact iff_of_true rfl ⟨[], r, rules, rfl, hdrops, fun _ h => nomatch h⟩
    rw [hpoint, ih]
    constructor
    · rintro ⟨before, r', after, rfl, hdrops, hbefore⟩
      exact ⟨r :: before, r', after, rfl, hdrops, forall_mem_cons.2 ⟨hnot, hbefore⟩⟩
    · rintro ⟨before, r', after, heq, hdrops, hbefore⟩
      cases before with
      | nil => exact absurd ((cons.inj heq).1 ▸ hdrops) hkeeps
      | cons r₁ before =>
        exact ⟨before, r', after, (cons.inj heq).2, hdrops, (forall_mem_cons.1 hbefore).2⟩

end RuleEval

variable [DecidableEq V]

/-! ### Evaluation -/

/-- `Append`, and whether there is no error. A second, different sample for a series and a time is
rejected. -/
def Storage.append (st : Storage S V) (x : S × ℤ) (p : Point V) : Bool × Storage S V :=
  match st x with
  | some q => (q = p, st)
  | none => (true, Function.update st x (some p))

/-- The loop over the vector of a rule, with `seriesReturned`. -/
def appendVector (t : ℤ) : List (S × V) → Storage S V → List S × Storage S V
  | [], st => ([], st)
  | (s, v) :: vector, st =>
    let (ok, st) := st.append (s, t) (.sample v)
    let (seriesReturned, st) := appendVector t vector st
    (if ok then s :: seriesReturned else seriesReturned, st)

/-- The loop over the series that the rule wrote before. -/
def appendMarkers (t : ℤ) (seriesReturned : List S) : List S → Storage S V → Storage S V
  | [], st => st
  | s :: previous, st =>
    if s ∈ seriesReturned then appendMarkers t seriesReturned previous st
    else appendMarkers t seriesReturned previous (st.append (s, t) .stale).2

/-- The function `eval` for one rule. -/
def evalRule (t : ℤ) : RuleEval S V → Storage S V → List S × Storage S V
  | (previous, none), st => (previous, st)
  | (previous, some vector), st =>
    let (seriesReturned, st) := appendVector t vector st
    (seriesReturned, appendMarkers t seriesReturned previous st)

/-- The rules of a group, one after the other. -/
def evalRules (t : ℤ) : List (RuleEval S V) → Storage S V → List (List S) × Storage S V
  | [], st => ([], st)
  | rule :: rules, st =>
    let (seriesReturned, st) := evalRule t rule st
    let (rest, st) := evalRules t rules st
    (seriesReturned :: rest, st)

namespace Group

variable (g : Group S V) (e : Evaluation S V)

/-- `Eval`. -/
def eval : Group S V :=
  let (seriesReturned, storage) := evalRules (g.time e) (g.rules e) g.storage
  ⟨seriesReturned, storage, g.time e⟩

/-- Exactly the series that some rule has written the last time and that no rule gives now get a
marker, and no sample is lost to one. -/
structure MarksStale (g : Group S V) (e : Evaluation S V) : Prop where
  marked : ∀ s, (g.eval e).storage (s, g.time e) = some .stale ↔
    (∃ previous ∈ g.seriesInPreviousEval, s ∈ previous) ∧ ∀ r ∈ g.rules e, ¬r.Produces s
  kept : ∀ s, (∃ r ∈ g.rules e, r.Produces s) →
    ∃ v, (g.eval e).storage (s, g.time e) = some (.sample v)

/-- If a series has gone from a rule and a later rule gives it, so does an earlier one. If it is
given by no rule, then not all rules that have written it fail. -/
structure Orderly (g : Group S V) (e : Evaluation S V) : Prop where
  earlier : ∀ s before r after, g.rules e = before ++ r :: after → r.Drops s →
    (∃ r' ∈ after, r'.Produces s) → ∃ r' ∈ before, r'.Produces s
  succeeds : ∀ s, (∃ previous ∈ g.seriesInPreviousEval, s ∈ previous) →
    (∀ r ∈ g.rules e, ¬r.Produces s) → ∃ r ∈ g.rules e, r.Drops s

end Group

lemma appends_append {t : ℤ} {st : Storage S V} (s : S) (p : Point V) :
    Appends t (fun s' => if s' = s then some p else none) st (st.append (s, t) p).2 := by
  rintro ⟨s', t'⟩
  unfold Storage.append
  by_cases hx : s' = s ∧ t' = t
  · obtain ⟨rfl, rfl⟩ := hx
    cases hst : st (s', t') <;> simp [hst]
  · cases hst : st (s, t) <;> grind

variable (t : ℤ)

lemma appends_appendVector (vector : List (S × V)) (st : Storage S V) :
    Appends t (fun s => (vector.find? (·.1 = s)).map fun e => .sample e.2) st
      (appendVector t vector st).2 := by
  induction vector generalizing st with
  | nil => exact .refl
  | cons e vector ih =>
    refine ((appends_append e.1 (.sample e.2)).trans (ih _)).of_eq fun s => ?_
    by_cases hs : s = e.1
    · simp [hs]
    · simp [hs, Ne.symm hs]

lemma mem_of_mem_appendVector {t : ℤ} {vector : List (S × V)} {st : Storage S V} {s : S}
    (h : s ∈ (appendVector t vector st).1) : s ∈ vector.map Prod.fst := by
  induction vector generalizing st with
  | nil => exact h
  | cons e vector ih => grind [appendVector]

lemma appends_appendMarkers (seriesReturned previous : List S) (st : Storage S V) :
    Appends t (fun s => if s ∈ previous ∧ s ∉ seriesReturned then some .stale else none) st
      (appendMarkers t seriesReturned previous st) := by
  induction previous generalizing st with
  | nil => exact Appends.refl.of_eq fun s => by simp
  | cons s previous ih =>
    rw [appendMarkers]
    split_ifs with hs
    · refine (ih st).of_eq fun s' => ?_
      grind
    · refine ((appends_append s .stale).trans (ih _)).of_eq fun s' => ?_
      grind

lemma appends_evalRule (r : RuleEval S V) (st : Storage S V) :
    Appends t (r.point) st (evalRule t r st).2 := by
  obtain ⟨previous, result⟩ := r
  cases result with
  | none => exact .refl
  | some vector =>
    refine ((appends_appendVector t vector st).trans
      (appends_appendMarkers t (appendVector t vector st).1 previous _)).of_eq fun s => ?_
    -- A series without a sample is not among those that were written.
    have hmem := @mem_of_mem_appendVector _ _ _ _ t vector st s
    rw [RuleEval.point, Option.bind_some]
    cases hfind : vector.find? (·.1 = s) with
    | some e => rfl
    | none => grind

/-- The first rule that has something for a series decides. -/
lemma appends_evalRules (rules : List (RuleEval S V)) (st : Storage S V) :
    Appends t (fun s => rules.findSome? (RuleEval.point s)) st (evalRules t rules st).2 := by
  induction rules generalizing st with
  | nil => exact .refl
  | cons r rules ih =>
    refine ((appends_evalRule t r st).trans (ih _)).of_eq fun s => ?_
    cases hpoint : r.point s <;> simp [hpoint]

namespace Group

variable {g : Group S V}

lemma Fresh.eval (hg : g.Fresh) (e : Evaluation S V) : (g.eval e).Fresh := by
  intro x (hx : g.time e < x.2)
  have hstorage := appends_evalRules (g.time e) (g.rules e) g.storage x
  rw [if_neg hx.ne'] at hstorage
  exact hstorage.trans (hg x ((g.lastEvaluation_lt_time e).trans hx))

lemma Fresh.storage_eval (hg : g.Fresh) (e : Evaluation S V) (s : S) :
    (g.eval e).storage (s, g.time e) = (g.rules e).findSome? (RuleEval.point s) := by
  have hstorage := appends_evalRules (g.time e) (g.rules e) g.storage (s, g.time e)
  rw [if_pos rfl, hg _ (g.lastEvaluation_lt_time e)] at hstorage
  exact hstorage

lemma marksStale_iff_orderly (hg : g.Fresh) (e : Evaluation S V) :
    g.MarksStale e ↔ g.Orderly e := by
  have hstale : ∀ s, (g.eval e).storage (s, g.time e) = some .stale ↔ _ := fun s => by
    rw [hg.storage_eval, RuleEval.findSome?_eq_stale_iff]
  constructor
  · intro h
    refine ⟨fun s before r after heq hdrops hafter => ?_, fun s hprevious hnone => ?_⟩
    · by_contra hbefore
      push Not at hbefore
      obtain ⟨r', hr', hproduces⟩ := hafter
      refine ((h.marked s).1 ((hstale s).2 ⟨before, r, after, heq, hdrops, hbefore⟩)).2 r' ?_
        hproduces
      rw [heq]
      exact mem_append_right _ (mem_cons_of_mem r hr')
    · obtain ⟨before, r, after, heq, hdrops, -⟩ := (hstale s).1 ((h.marked s).2 ⟨hprevious, hnone⟩)
      exact ⟨r, heq ▸ mem_append_right _ mem_cons_self, hdrops⟩
  · intro h
    have hmarked : ∀ s, (g.eval e).storage (s, g.time e) = some .stale ↔
        (∃ previous ∈ g.seriesInPreviousEval, s ∈ previous) ∧ ∀ r ∈ g.rules e, ¬r.Produces s := by
      intro s
      rw [hstale]
      constructor
      · rintro ⟨before, r, after, heq, hdrops, hbefore⟩
        have hr : r ∈ g.rules e := heq ▸ mem_append_right _ mem_cons_self
        refine ⟨exists_previous hr hdrops, fun r' hr' hproduces => ?_⟩
        -- The series is not given before, nor by the rule that drops it, and so not after it.
        rw [heq] at hr'
        rcases mem_append.1 hr' with hr' | hr'
        · exact hbefore r' hr' hproduces
        rcases mem_cons.1 hr' with rfl | hr'
        · exact RuleEval.not_produces_of_drops hdrops hproduces
        · obtain ⟨r₁, hr₁, hproduces₁⟩ := h.earlier s before r after heq hdrops ⟨r', hr', hproduces⟩
          exact hbefore r₁ hr₁ hproduces₁
      · rintro ⟨hprevious, hnone⟩
        obtain ⟨r, hr, hdrops⟩ := h.succeeds s hprevious hnone
        obtain ⟨before, after, heq⟩ := append_of_mem hr
        exact ⟨before, r, after, heq, hdrops, fun r' hr' =>
          hnone r' (heq ▸ mem_append_left _ hr')⟩
    refine ⟨hmarked, fun s ⟨r, hr, hproduces⟩ => ?_⟩
    cases hpoint : (g.eval e).storage (s, g.time e) with
    | none =>
      rw [hg.storage_eval, findSome?_eq_none_iff] at hpoint
      rcases RuleEval.point_cases s r with ⟨⟨v, hsample⟩, -⟩ | ⟨-, hdrops⟩ | ⟨-, hnot, -⟩
      · rw [hpoint r hr] at hsample
        cases hsample
      · exact absurd hproduces (RuleEval.not_produces_of_drops hdrops)
      · exact absurd hproduces hnot
    | some p =>
      cases p with
      | sample v => exact ⟨v, rfl⟩
      | stale => exact absurd hproduces (((hmarked s).1 hpoint).2 r hr)

/-- In every run the markers of all evaluations are right exactly if all evaluations are orderly. -/
theorem along_marksStale_iff (rules : ℕ) (start : ℤ) (old : Storage S V)
    (es : List (Evaluation S V)) :
    Transition.Along (fun g e => some (eval g e)) MarksStale (init rules start old) es ↔
      Transition.Along (fun g e => some (eval g e)) Orderly (init rules start old) es := by
  refine Transition.along_congr ?_
    (fun g e hg => marksStale_iff_orderly hg e) (fresh_init rules start old)
    (Transition.along_of_forall fun _ _ => trivial)
  rintro g e g' hg - ⟨⟩
  exact hg.eval e

/-- A series moves from the first rule to the second one: its sample is lost to the marker of the
first. -/
theorem moved_series_lost :
    ¬Transition.Along (fun g e => some (eval g e)) MarksStale (init 2 0 fun _ : Unit × ℤ => none)
      [⟨0, fun i => some (if i = 0 then [((), 1)] else [])⟩,
        ⟨0, fun i => some (if i = 0 then [] else [((), 2)])⟩] := by
  intro h
  obtain ⟨v, hv⟩ := (h.2 _ rfl).1.kept () ⟨([], some [((), 2)]), by decide, _, rfl, by decide⟩
  have hstale : some (Point.sample v) = some .stale := hv.symm.trans (by decide +kernel)
  cases hstale

end Group

end Prometheus.Rules
