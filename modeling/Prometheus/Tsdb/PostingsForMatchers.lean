import Prometheus.Index.MemPostings
import Prometheus.Index.Query
import Prometheus.Labels.Matcher

/-!
# Postings for matchers

`PostingsForMatchers` of `tsdb/querier.go`, which puts a single postings iterator together from the
matchers of a query: some matchers are turned into lists to intersect, others into lists to
subtract, and a few need none.

A matcher is given the empty string for a label that a series does not have. What makes the
translation delicate is that an index only lists series that do have a label. A list of the series
whose label matches misses those without the label, so it stands for the matcher only if some
matcher demands that the label be set (`labelMustBeSet`). A list of those whose label does not match
is exact if the matcher accepts the empty string. `Contribution` is what a turn of the loop makes of
a matcher.

Regular expressions are a parameter, of which the three patterns with a branch of their own are
known. The index reader is one, too, and returns iterators that are cursors over the right series
(`IndexReader.Serves`). Neither fails, and the context is not cancelled.
-/

namespace Prometheus.Tsdb

open Index List Prod

/-! ### The index -/

/-- The labels of a series in an index: names are distinct and values not empty. -/
structure SeriesLabels extends Labels where
  names_nodup : (toList.map Label.name).Nodup
  value_ne : ∀ l ∈ toList, l.value ≠ ""

/-- The value of a label, or the empty string if there is no such label. -/
def SeriesLabels.get (ls : SeriesLabels) (name : String) : String :=
  ((ls.toList.find? fun l => l.name = name).map Label.value).getD ""

/-- The series of an index. -/
structure IndexContent where
  refs : Finset ℕ
  lset : ℕ → SeriesLabels
  bounds : ∀ ref ∈ refs, 1 ≤ ref ∧ ref < 2 ^ 64 - 1

/-- The methods of an index reader that are used. -/
structure IndexReader where
  postings : String → List String → Obj
  postingsForLabelMatching : String → (String → Bool) → Obj
  postingsForAllLabelValues : String → Obj

namespace IndexReader

/-- The iterators of the reader are cursors over the series with one of the given values, with a
matching value, and with any value. They can be sought for the `ok` numbers, which all references
are. -/
structure Serves (ix : IndexReader) (c : IndexContent) (tree : ∀ n, LoserTree (n + 2)) (fuel : ℕ)
    (ok : ℕ → Prop) : Prop where
  ok_ref : ∀ ref ∈ c.refs, ok ref
  all : (ix.postings allPostingsKey.name [allPostingsKey.value]).Cursor tree fuel c.refs c.refs ok
  postings : ∀ {name}, name ≠ "" → ∀ values, (ix.postings name values).Cursor tree fuel
    {ref | ref ∈ c.refs ∧ ∃ v ∈ values, ⟨name, v⟩ ∈ (c.lset ref).toList} c.refs ok
  labelMatching : ∀ {name}, name ≠ "" → ∀ match_, (ix.postingsForLabelMatching name match_).Cursor
    tree fuel {ref | ref ∈ c.refs ∧ ∃ v, ⟨name, v⟩ ∈ (c.lset ref).toList ∧
      match_ v = true} c.refs ok
  allLabelValues : ∀ {name}, name ≠ "" → (ix.postingsForAllLabelValues name).Cursor tree fuel
    {ref | ref ∈ c.refs ∧ ∃ v, ⟨name, v⟩ ∈ (c.lset ref).toList} c.refs ok

end IndexReader

/-! ### The function -/

section Function

variable (rx : Regexps) (ix : IndexReader)

def postingsForMatcher (m : Matcher) : Obj :=
  if m.type = .matchEqual then ix.postings m.name [m.value]
  else if m.type = .matchRegexp ∧ m.setMatches rx ≠ [] then ix.postings m.name (m.setMatches rx)
  else ix.postingsForLabelMatching m.name (m.matches rx)

/-- The postings of the series with the label name set but not matching the matcher. -/
def inversePostingsForMatcher (m : Matcher) : Obj :=
  if m.type = .matchNotRegexp ∧ m.setMatches rx ≠ [] then ix.postings m.name (m.setMatches rx)
  else if m.type = .matchNotEqual then ix.postings m.name [m.value]
  else if m.value = "" ∧ (m.type = .matchRegexp ∨ m.type = .matchEqual) then
    ix.postingsForAllLabelValues m.name
  else ix.postingsForLabelMatching m.name fun s => !m.matches rx s

variable (ms : List Matcher)

/-- The map `labelMustBeSet`. -/
def labelMustBeSet (name : String) : Bool :=
  ms.any fun m => m.name = name && !m.matches rx ""

def isSubtractingMatcher (m : Matcher) : Bool :=
  if !labelMustBeSet rx ms m.name then true else m.isNot && m.matches rx ""

/-- How a turn of the loop ends: with `its` and `notIts`, or with a `return` of `EmptyPostings`. -/
inductive Turn
  | collected (its notIts : List Obj)
  | empty

/-- `its = append(its, it)`, unless the postings are known to be empty. -/
def Turn.intersectWith (its notIts : List Obj) (it : Obj) : Turn :=
  if it.isEmpty then .empty else .collected (its ++ [it]) notIts

/-- The body of the loop over the matchers. -/
def matcherTurn (its notIts : List Obj) (m : Matcher) : Except String Turn :=
  if m.name = "" ∧ m.value = "" then .error "unexpected all postings"
  -- .* regexp matches any string: do nothing.
  else if m.type = .matchRegexp ∧ m.value = ".*" then .ok (.collected its notIts)
  else if m.type = .matchNotRegexp ∧ m.value = ".*" then .ok .empty
  -- .+ regexp matches any non-empty string: get postings for all label values.
  else if m.type = .matchRegexp ∧ m.value = ".+" then
    .ok (.intersectWith its notIts (ix.postingsForAllLabelValues m.name))
  else if m.type = .matchNotRegexp ∧ m.value = ".+" then
    .ok (.collected its (notIts ++ [ix.postingsForAllLabelValues m.name]))
  else if labelMustBeSet rx ms m.name then
    -- If this matcher must be non-empty, we can be smarter.
    if m.isNot && m.matches rx "" then -- l!="foo"
      .ok (.collected its (notIts ++ [postingsForMatcher rx ix m.inverse]))
    else if m.isNot then -- l!=""
      .ok (.intersectWith its notIts (inversePostingsForMatcher rx ix m.inverse))
    else -- l="a", l=~"a|b", l=~"a.b", etc.
      .ok (.intersectWith its notIts (postingsForMatcher rx ix m))
  else -- l=""
    .ok (.collected its (notIts ++ [inversePostingsForMatcher rx ix m]))

/-- The loop over the matchers. -/
def matcherLoop (ms : List Matcher) : List Matcher → List Obj → List Obj → Except String Turn
  | [], its, notIts => .ok (.collected its notIts)
  | m :: rest, its, notIts => do
    match ← matcherTurn rx ix ms its notIts m with
    | .empty => return .empty
    | .collected its notIts => matcherLoop ms rest its notIts

/-- `index.Intersect(its...)`. -/
def intersectAll (its : List Obj) : Obj :=
  mkIntersect its.length its.get

/-- The value of `its` before the loop. -/
def basePostings : List Obj :=
  let hasSubtractingMatchers := ms.any (isSubtractingMatcher rx ms)
  let hasIntersectingMatchers := ms.any fun m => !isSubtractingMatcher rx ms m
  -- If there's nothing to subtract from, add in everything and remove the notIts later.
  if hasSubtractingMatchers && !hasIntersectingMatchers then
    [ix.postings allPostingsKey.name [allPostingsKey.value]]
  else []

/-- `PostingsForMatchers`. `sort` is the sort that puts the intersecting matchers first. -/
def postingsForMatchers (sort : List Matcher → List Matcher) (ms : List Matcher) :
    Except String Obj :=
  if ms.length = 1 ∧ ∀ m ∈ ms, m.name = "" ∧ m.value = "" then
    .ok (ix.postings allPostingsKey.name [allPostingsKey.value])
  else do
    match ← matcherLoop rx ix ms (sort ms) (basePostings rx ix ms) [] with
    | .empty => return .empty
    | .collected its notIts => return notIts.foldl mkWithout (intersectAll its)

end Function

/-! ### What the lists hold -/

namespace SeriesLabels

/-- A label of a series has the value that `get` finds. -/
lemma get_eq_of_mem {ls : SeriesLabels} {name v : String} (h : ⟨name, v⟩ ∈ ls.toList) :
    ls.get name = v := by
  have hfind : ls.toList.find? (fun l => l.name = name) = some ⟨name, v⟩ := by
    cases hf : ls.toList.find? (fun l => l.name = name) with
    | none => exact absurd (find?_eq_none.1 hf _ h) (by simp)
    | some l =>
      have hname : l.name = name := by simpa using find?_some hf
      exact congrArg some (inj_on_of_nodup_map ls.names_nodup (mem_of_find?_eq_some hf) h hname)
  rw [get, hfind]
  rfl

/-- The label is there if it has a value. -/
lemma mem_of_get_ne {ls : SeriesLabels} {name : String} (h : ls.get name ≠ "") :
    ⟨name, ls.get name⟩ ∈ ls.toList := by
  unfold get at h ⊢
  cases hf : ls.toList.find? (fun l => l.name = name) with
  | none => simp [hf] at h
  | some l =>
    have hname : l.name = name := by simpa using find?_some hf
    have hmem := mem_of_find?_eq_some hf
    rw [← hname]
    exact hmem

lemma exists_mem_iff (ls : SeriesLabels) (name : String) (P : String → Prop) :
    (∃ v, ⟨name, v⟩ ∈ ls.toList ∧ P v) ↔ ls.get name ≠ "" ∧ P (ls.get name) := by
  constructor
  · rintro ⟨v, hv, hP⟩
    rw [get_eq_of_mem hv]
    exact ⟨ls.value_ne _ hv, hP⟩
  · exact fun ⟨hne, hP⟩ => ⟨_, mem_of_get_ne hne, hP⟩

end SeriesLabels

namespace IndexContent

variable (rx : Regexps) (c : IndexContent) (m : Matcher) (ref : ℕ)

/-- The series has the label of the matcher. -/
def IsSet : Prop := (c.lset ref).get m.name ≠ ""

/-- The matcher holds of the series. -/
def Holds : Prop := m.matches rx ((c.lset ref).get m.name) = true

instance : Decidable (c.Holds rx m ref) := inferInstanceAs (Decidable (_ = true))

end IndexContent

section Lists

variable {rx : Regexps} {ix : IndexReader} {c : IndexContent} {tree : ∀ n, LoserTree (n + 2)}
  {fuel : ℕ} {ok : ℕ → Prop} {m : Matcher}

section

variable (hix : ix.Serves c tree fuel ok)
include hix

section

variable (hname : m.name ≠ "")
include hname

lemma postings_cursor {values : List String}
    (P : String → Prop) (hP : ∀ s, s ≠ "" → (s ∈ values ↔ P s)) :
    (ix.postings m.name values).Cursor tree fuel
      {ref | ref ∈ c.refs ∧ c.IsSet m ref ∧ P ((c.lset ref).get m.name)} c.refs ok := by
  refine (hix.postings hname values).congr fun ref => and_congr_right fun _ => ?_
  calc c.IsSet m ref ∧ P ((c.lset ref).get m.name)
      ↔ c.IsSet m ref ∧ (c.lset ref).get m.name ∈ values := and_congr_right fun h => (hP _ h).symm
    _ ↔ ∃ v, _ ∧ v ∈ values := ((c.lset ref).exists_mem_iff m.name (· ∈ values)).symm
    _ ↔ ∃ v ∈ values, ⟨m.name, v⟩ ∈ (c.lset ref).toList := by simp only [and_comm]

lemma labelMatching_cursor
    (f : String → Bool) :
    (ix.postingsForLabelMatching m.name f).Cursor tree fuel
      {ref | ref ∈ c.refs ∧ c.IsSet m ref ∧ f ((c.lset ref).get m.name) = true} c.refs ok :=
  (hix.labelMatching hname f).congr fun ref => and_congr_right fun _ =>
    ((c.lset ref).exists_mem_iff m.name (f · = true)).symm

/-- The series that have the label. -/
lemma allLabelValues_cursor {P : ℕ → Prop} (hP : ∀ ref, c.IsSet m ref → P ref) :
    (ix.postingsForAllLabelValues m.name).Cursor tree fuel
      {ref | ref ∈ c.refs ∧ c.IsSet m ref ∧ P ref} c.refs ok := by
  refine (hix.allLabelValues hname).congr fun ref => and_congr_right fun _ => ?_
  rw [and_iff_left_of_imp (hP ref)]
  simpa [IndexContent.IsSet] using ((c.lset ref).exists_mem_iff m.name fun _ => True).symm

/-- The series that have the label and match. -/
lemma postingsForMatcher_cursor :
    (postingsForMatcher rx ix m).Cursor tree fuel
      {ref | ref ∈ c.refs ∧ c.IsSet m ref ∧ c.Holds rx m ref} c.refs ok := by
  unfold postingsForMatcher
  split_ifs with hequal hset
  · exact postings_cursor hix hname (fun s => m.matches rx s = true) fun s _ => by
      simp [Matcher.matches, hequal]
  · obtain ⟨htype, hne⟩ := hset
    rw [Matcher.setMatches, htype] at hne ⊢
    exact postings_cursor hix hname (fun s => m.matches rx s = true) fun s _ => by
      rw [rx.mem_setMatches hne, Matcher.matches, htype]
  · exact labelMatching_cursor hix hname (m.matches rx)

/-- The series that have the label and do not match. -/
lemma inversePostingsForMatcher_cursor :
    (inversePostingsForMatcher rx ix m).Cursor tree fuel
      {ref | ref ∈ c.refs ∧ c.IsSet m ref ∧ ¬ c.Holds rx m ref} c.refs ok := by
  unfold inversePostingsForMatcher
  split_ifs with hset hnotEqual hempty
  · obtain ⟨htype, hne⟩ := hset
    rw [Matcher.setMatches, htype] at hne ⊢
    exact postings_cursor hix hname (fun s => ¬ m.matches rx s = true) fun s _ => by
      rw [rx.mem_setMatches hne, Matcher.matches, htype]
      simp
  · exact postings_cursor hix hname (fun s => ¬ m.matches rx s = true) fun s _ => by
      simp [Matcher.matches, hnotEqual]
  · -- only the empty string matches, so no label that is set does
    refine allLabelValues_cursor hix hname fun ref hisSet hholds => hisSet ?_
    obtain ⟨hvalue, htype | htype⟩ := hempty <;>
      rw [IndexContent.Holds, Matcher.matches, htype, hvalue] at hholds
    · exact (rx.empty _).1 hholds
    · exact of_decide_eq_true hholds
  · have := labelMatching_cursor hix hname fun s => !m.matches rx s
    simpa only [IndexContent.Holds, Bool.not_eq_true, Bool.not_eq_true'] using this

end

end

/-! ### The loop -/

/-- What a turn of the loop makes of a matcher. -/
inductive Contribution (rx : Regexps) (c : IndexContent) (tree : ∀ n, LoserTree (n + 2)) (fuel : ℕ)
    (ok : ℕ → Prop) (ms : List Matcher) (m : Matcher) (its notIts : List Obj) : Turn → Prop
  /-- Nothing, as it always holds. -/
  | nothing (holds : ∀ ref, c.Holds rx m ref) (empty : m.matches rx "" = true) :
    Contribution rx c tree fuel ok ms m its notIts (.collected its notIts)
  /-- A list to intersect: the label has to be set, so series without it may be missed. -/
  | intersect {it : Obj} (mustBeSet : labelMustBeSet rx ms m.name = true)
    (cursor : it.Cursor tree fuel {ref | ref ∈ c.refs ∧ c.IsSet m ref ∧
    c.Holds rx m ref} c.refs ok) :
    Contribution rx c tree fuel ok ms m its notIts (.collected (its ++ [it]) notIts)
  /-- A list to subtract. -/
  | subtract {it : Obj} (empty : m.matches rx "" = true)
    (cursor : it.Cursor tree fuel {ref | ref ∈ c.refs ∧ ¬ c.Holds rx m ref} c.refs ok) :
    Contribution rx c tree fuel ok ms m its notIts (.collected its (notIts ++ [it]))
  /-- The end: no series can match. -/
  | none (none : ∀ ref ∈ c.refs, (labelMustBeSet rx ms m.name = true → c.IsSet m ref) →
      ¬ c.Holds rx m ref) :
    Contribution rx c tree fuel ok ms m its notIts .empty

variable {ms : List Matcher} {its notIts : List Obj} {it : Obj}

lemma Contribution.intersectWith (mustBeSet : labelMustBeSet rx ms m.name = true)
    (cursor : it.Cursor tree fuel {ref | ref ∈ c.refs ∧ c.IsSet m ref ∧ c.Holds rx m ref} c.refs
      ok) :
    Contribution rx c tree fuel ok ms m its notIts (.intersectWith its notIts it) := by
  unfold Turn.intersectWith
  split_ifs with hempty
  · refine .none fun ref href hset hholds => ?_
    have hmem : ref ∈ {ref | ref ∈ c.refs ∧ c.IsSet m ref ∧ c.Holds rx m ref} :=
      ⟨href, hset mustBeSet, hholds⟩
    rw [cursor.eq_empty hempty] at hmem
    exact hmem
  · exact .intersect mustBeSet cursor

/-- A list of the series that have the label and do not match has all that do not match, if the
matcher accepts the empty string. -/
lemma Contribution.subtract_set (empty : m.matches rx "" = true)
    (cursor : it.Cursor tree fuel {ref | ref ∈ c.refs ∧ c.IsSet m ref ∧ ¬ c.Holds rx m ref} c.refs
      ok) :
    Contribution rx c tree fuel ok ms m its notIts (.collected its (notIts ++ [it])) := by
  refine .subtract empty (cursor.congr fun ref => and_congr_right fun _ => ?_)
  refine (and_iff_right_of_imp fun hnot hget => hnot ?_).symm
  rw [IndexContent.Holds, hget]
  exact empty

lemma labelMustBeSet_of_mem (hm : m ∈ ms) (hempty : m.matches rx "" = false) :
    labelMustBeSet rx ms m.name = true :=
  any_eq_true.2 ⟨m, hm, by simp [hempty]⟩

lemma matcherTurn_spec (hix : ix.Serves c tree fuel ok) (hm : m ∈ ms) (hname : m.name ≠ "") :
    ∃ turn, matcherTurn rx ix ms its notIts m = .ok turn ∧
      Contribution rx c tree fuel ok ms m its notIts turn := by
  -- the inverse has the same label, and holds where the matcher does not
  have hinverse (ref) : c.Holds rx m.inverse ref ↔ ¬ c.Holds rx m ref := by
    simp [IndexContent.Holds, Matcher.matches_inverse]
  have hsame (ref) : c.IsSet m.inverse ref ↔ c.IsSet m ref := by simp [IndexContent.IsSet]
  have hname' : m.inverse.name ≠ "" := by rwa [Matcher.name_inverse]
  unfold matcherTurn
  rw [if_neg fun h => hname h.1]
  split_ifs with hstar hnotStar hplus hnotPlus hmust hnotEmpty hnot
  · obtain ⟨htype, hvalue⟩ := hstar
    have hall (s) : m.matches rx s = true := by
      rw [Matcher.matches, htype, hvalue]
      exact rx.dotStar s
    exact ⟨_, rfl, .nothing (fun ref => hall _) (hall _)⟩
  · obtain ⟨htype, hvalue⟩ := hnotStar
    refine ⟨_, rfl, .none fun ref _ _ hholds => ?_⟩
    rw [IndexContent.Holds, Matcher.matches, htype, hvalue, rx.dotStar] at hholds
    cases hholds
  · obtain ⟨htype, hvalue⟩ := hplus
    have hiff (s) : m.matches rx s = true ↔ s ≠ "" := by
      rw [Matcher.matches, htype, hvalue]
      exact rx.dotPlus s
    have hempty : m.matches rx "" = false := by simpa using (hiff "").not.2 (by simp)
    exact ⟨_, rfl, .intersectWith (labelMustBeSet_of_mem hm hempty)
      (allLabelValues_cursor hix hname fun ref => (hiff _).2)⟩
  · obtain ⟨htype, hvalue⟩ := hnotPlus
    have hiff (s) : m.matches rx s = true ↔ s = "" := by
      rw [Matcher.matches, htype, hvalue, Bool.not_eq_true', ← Bool.not_eq_true,
        rx.dotPlus, not_not]
    exact ⟨_, rfl, .subtract_set ((hiff _).2 rfl)
      (allLabelValues_cursor hix hname fun ref => mt (hiff _).1)⟩
  · refine ⟨_, rfl, .subtract_set (Bool.and_eq_true_iff.1 hnotEmpty).2 ?_⟩
    have := @postingsForMatcher_cursor rx _ _ _ _ _ _ hix hname'
    simpa only [hinverse, hsame] using this
  · refine ⟨_, rfl, .intersectWith hmust ?_⟩
    have := @inversePostingsForMatcher_cursor rx _ _ _ _ _ _ hix hname'
    simpa only [hinverse, hsame, not_not] using this
  · exact ⟨_, rfl, .intersectWith hmust (postingsForMatcher_cursor hix hname)⟩
  · have hempty : m.matches rx "" = true := by
      by_contra h
      exact hmust (labelMustBeSet_of_mem hm (by simpa using h))
    exact ⟨_, rfl, .subtract_set hempty (inversePostingsForMatcher_cursor hix hname)⟩

/-- What the loop has collected from the matchers `done`: iterators, each with the set it is a
cursor over. Together they let a series through only if the matchers hold of it, and if they do and
labels are set that must be. There is something to subtract from if there was before (`based`) or if
a matcher rejects the empty string. -/
structure Collected (rx : Regexps) (c : IndexContent) (tree : ∀ n, LoserTree (n + 2)) (fuel : ℕ)
    (ok : ℕ → Prop) (ms : List Matcher) (based : Prop) (done : List Matcher)
    (its notIts : List (Obj × Set ℕ)) : Prop where
  its_cursor : ∀ p ∈ its, p.1.Cursor tree fuel p.2 c.refs ok
  notIts_cursor : ∀ p ∈ notIts, p.1.Cursor tree fuel p.2 c.refs ok
  sound : ∀ ref ∈ c.refs, (∀ p ∈ its, ref ∈ p.2) → (∀ p ∈ notIts, ref ∉ p.2) →
    ∀ m ∈ done, c.Holds rx m ref
  complete : ∀ ref ∈ c.refs, (∀ m ∈ done, c.Holds rx m ref) →
    (∀ m ∈ done, labelMustBeSet rx ms m.name = true → c.IsSet m ref) →
    (∀ p ∈ its, ref ∈ p.2) ∧ ∀ p ∈ notIts, ref ∉ p.2
  its_ne : (based ∨ ∃ m ∈ done, m.matches rx "" = false) → its ≠ []

section

variable {based : Prop} {done : List Matcher} {its notIts : List (Obj × Set ℕ)}

lemma exists_of_concat (hm : m.matches rx "" = true)
    (h : ∃ m' ∈ done ++ [m], m'.matches rx "" = false) : ∃ m' ∈ done, m'.matches rx "" = false := by
  obtain ⟨m', hm', hne⟩ := h
  rcases mem_append.1 hm' with hm' | hm'
  · exact ⟨m', hm', hne⟩
  · rw [mem_singleton.1 hm', hm] at hne
    cases hne

variable (h : Collected rx c tree fuel ok ms based done its notIts)
include h

/-- One turn. -/
lemma Collected.turn (hix : ix.Serves c tree fuel ok) (hm : m ∈ ms) (hname : m.name ≠ "") :
    (matcherTurn rx ix ms (its.map fst) (notIts.map fst) m = .ok .empty ∧
      ∀ ref ∈ c.refs, (labelMustBeSet rx ms m.name = true → c.IsSet m ref) → ¬ c.Holds rx m ref) ∨
    ∃ its' notIts', matcherTurn rx ix ms (its.map fst) (notIts.map fst) m =
        .ok (.collected (its'.map fst) (notIts'.map fst)) ∧
      Collected rx c tree fuel ok ms based (done ++ [m]) its' notIts' := by
  obtain ⟨turn, hturn, hcontribution⟩ := @matcherTurn_spec rx _ _ _ _ _ _ _ (its.map fst)
    (notIts.map fst) hix hm hname
  rw [hturn]
  cases hcontribution with
  | nothing holds empty =>
    refine .inr ⟨its, notIts, rfl, h.its_cursor, h.notIts_cursor, ?_, ?_, ?_⟩
    · intro ref href hits hnot
      simpa [holds ref, or_imp, forall_and] using h.sound ref href hits hnot
    · intro ref href hholds hset
      exact h.complete ref href (fun m hm => hholds m (mem_append_left _ hm))
        fun m hm => hset m (mem_append_left _ hm)
    · exact fun hne => h.its_ne (hne.imp_right (exists_of_concat empty))
  | @intersect it mustBeSet cursor =>
    refine .inr ⟨its ++ [(it, {ref | ref ∈ c.refs ∧ c.IsSet m ref ∧ c.Holds rx m ref})], notIts,
      by simp, ?_, h.notIts_cursor, ?_, ?_, by simp⟩
    · exact forall_mem_append.2 ⟨h.its_cursor, by simpa using cursor⟩
    · intro ref href hits hnot
      obtain ⟨hits, hlast⟩ := forall_mem_append.1 hits
      refine forall_mem_append.2 ⟨h.sound ref href hits hnot, ?_⟩
      simpa using (hlast _ (mem_singleton_self _)).2.2
    intro ref href hholds hset
    obtain ⟨hholds, hlast⟩ := forall_mem_append.1 hholds
    obtain ⟨hset, hsetLast⟩ := forall_mem_append.1 hset
    obtain ⟨hits, hnot⟩ := h.complete ref href hholds hset
    refine ⟨forall_mem_append.2 ⟨hits, ?_⟩, hnot⟩
    rintro p hp
    rw [mem_singleton.1 hp]
    exact ⟨href, hsetLast m (mem_singleton_self _) mustBeSet, hlast m (mem_singleton_self _)⟩
  | @subtract it empty cursor =>
    refine .inr ⟨its, notIts ++ [(it, {ref | ref ∈ c.refs ∧ ¬ c.Holds rx m ref})], by simp,
      h.its_cursor, ?_, ?_, ?_, ?_⟩
    · exact forall_mem_append.2 ⟨h.notIts_cursor, by simpa using cursor⟩
    · intro ref href hits hnot
      obtain ⟨hnot, hlast⟩ := forall_mem_append.1 hnot
      refine forall_mem_append.2 ⟨h.sound ref href hits hnot, ?_⟩
      have := hlast _ (mem_singleton_self _)
      simpa [href] using this
    · intro ref href hholds hset
      obtain ⟨hholds, hlast⟩ := forall_mem_append.1 hholds
      obtain ⟨hset, -⟩ := forall_mem_append.1 hset
      obtain ⟨hits, hnot⟩ := h.complete ref href hholds hset
      refine ⟨hits, forall_mem_append.2 ⟨hnot, ?_⟩⟩
      rintro p hp
      rw [mem_singleton.1 hp]
      exact fun hmem => hmem.2 (hlast m (mem_singleton_self _))
    · exact fun hne => h.its_ne (hne.imp_right (exists_of_concat empty))
  | none hnone => exact .inl ⟨rfl, hnone⟩

/-- The whole loop. -/
lemma Collected.loop {rest : List Matcher} (hix : ix.Serves c tree fuel ok)
    (hms : ∀ m ∈ rest, m ∈ ms) (hnames : ∀ m ∈ rest, m.name ≠ "") :
    (matcherLoop rx ix ms rest (its.map fst) (notIts.map fst) = .ok .empty ∧
      ∃ m ∈ rest, ∀ ref ∈ c.refs, (labelMustBeSet rx ms m.name = true → c.IsSet m ref) →
        ¬ c.Holds rx m ref) ∨
    ∃ its' notIts', matcherLoop rx ix ms rest (its.map fst) (notIts.map fst) =
        .ok (.collected (its'.map fst) (notIts'.map fst)) ∧
      Collected rx c tree fuel ok ms based (done ++ rest) its' notIts' := by
  induction rest generalizing done its notIts with
  | nil => exact .inr ⟨its, notIts, rfl, by simpa using h⟩
  | cons m rest ih =>
    obtain ⟨hm, hms⟩ := forall_mem_cons.1 hms
    obtain ⟨hname, hnames⟩ := forall_mem_cons.1 hnames
    rcases h.turn hix hm hname with ⟨hturn, hnone⟩ | ⟨its', notIts', hturn, h'⟩
    · refine .inl ⟨?_, m, mem_cons_self, hnone⟩
      rw [matcherLoop, hturn]
      rfl
    rw [matcherLoop, hturn]
    rcases ih h' hms hnames with ⟨hloop, m', hm', hnone⟩ | ⟨its'', notIts'', hloop, h''⟩
    · exact .inl ⟨hloop, m', mem_cons_of_mem _ hm', hnone⟩
    · exact .inr ⟨its'', notIts'', hloop, by simpa using h''⟩

end

/-! ### The result -/

lemma intersectAll_cursor (hix : ix.Serves c tree fuel ok) (hfuel : 2 ^ 64 < fuel)
    {its : List (Obj × Set ℕ)} (hits : ∀ p ∈ its, p.1.Cursor tree fuel p.2 c.refs ok) :
    (intersectAll (its.map fst)).Cursor tree fuel {ref | its ≠ [] ∧ ∀ p ∈ its, ref ∈ p.2}
      c.refs ok := by
  have hlen : (its.map fst).length = its.length := length_map _
  have hcursor (i : Fin (its.map fst).length) :
      ((its.map fst).get i).Cursor tree fuel (its.get (i.cast hlen)).2 c.refs ok := by
    have := hits (its.get (i.cast hlen)) (get_mem _ _)
    simpa using this
  have hmk := mkIntersect_cursor hcursor (fun _ _ a ha => hix.ok_ref a ha) hfuel
  refine (hmk.congr fun ref => ?_).mono (fun ref ⟨_, href⟩ => href) c.bounds fun v hv _ => hv
  refine and_congr (by simp [length_pos_iff]) ⟨fun h i => h _ (get_mem _ _), fun h p hp => ?_⟩
  obtain ⟨i, rfl⟩ := get_of_mem hp
  exact h (i.cast hlen.symm)

lemma foldl_mkWithout_cursor (hix : ix.Serves c tree fuel ok) (hfuel : 2 ^ 65 + 1 < fuel)
    {notIts : List (Obj × Set ℕ)} (hnotIts : ∀ p ∈ notIts, p.1.Cursor tree fuel p.2 c.refs ok)
    {L : Set ℕ} (hit : it.Cursor tree fuel L c.refs ok) :
    ((notIts.map fst).foldl mkWithout it).Cursor tree fuel
      {ref | ref ∈ L ∧ ∀ p ∈ notIts, ref ∉ p.2} c.refs ok := by
  induction notIts generalizing it L with
  | nil => simpa using hit
  | cons p notIts ih =>
    obtain ⟨hp, hnotIts⟩ := forall_mem_cons.1 hnotIts
    have hwithout : (mkWithout it p.1).Cursor tree fuel (L \ p.2) c.refs ok :=
      (mkWithout_cursor hit hp (hix.ok_ref) hfuel).mono subset_rfl c.bounds fun v hv => ⟨hv, hv⟩
    exact (ih hnotIts hwithout).congr (by simp [and_assoc])

/-- The series of which all matchers hold. -/
def matching (rx : Regexps) (c : IndexContent) (ms : List Matcher) : Set ℕ :=
  {ref | ref ∈ c.refs ∧ ∀ m ∈ ms, c.Holds rx m ref}

/-- If all matchers hold of a series, its labels are set that must be. -/
lemma isSet_of_holds {ref : ℕ} (h : ∀ m ∈ ms, c.Holds rx m ref)
    (hset : labelMustBeSet rx ms m.name = true) : c.IsSet m ref := by
  intro hget
  obtain ⟨m', hm', hname⟩ := any_eq_true.1 hset
  simp only [Bool.and_eq_true, decide_eq_true_eq, Bool.not_eq_true'] at hname
  have hholds := h m' hm'
  rw [IndexContent.Holds, hname.1, hget, hname.2] at hholds
  cases hholds

/-- Everything is the base if no matcher demands a label. -/
lemma basePostings_spec (hix : ix.Serves c tree fuel ok) (hne : ms ≠ []) :
    ∃ (its : List (Obj × Set ℕ)) (based : Prop), basePostings rx ix ms = its.map fst ∧
      Collected rx c tree fuel ok ms based [] its [] ∧
      (based ∨ ∃ m ∈ ms, m.matches rx "" = false) := by
  simp only [basePostings]
  split_ifs with hcond
  · refine ⟨[(_, (c.refs : Set ℕ))], True, rfl, ⟨?_, ?_, ?_, ?_, ?_⟩, .inl trivial⟩
    · simpa using hix.all
    · simp
    · simp
    · exact fun ref href _ _ => ⟨by simpa using href, by simp⟩
    · simp
  refine ⟨[], False, rfl, ⟨by simp, by simp, by simp, by simp, by simp⟩, .inr ?_⟩
  -- a matcher that is not subtracting has a label that some matcher demands
  obtain ⟨m, hm, hsub⟩ : ∃ m ∈ ms, isSubtractingMatcher rx ms m = false := by
    by_contra hall
    push Not at hall
    obtain ⟨m₀, hm₀⟩ := exists_mem_of_ne_nil ms hne
    refine hcond (Bool.and_eq_true_iff.2 ⟨any_eq_true.2 ⟨m₀, hm₀, ?_⟩, ?_⟩)
    · simpa using hall m₀ hm₀
    · simpa using hall
  have hset : labelMustBeSet rx ms m.name = true := by
    by_contra h
    simp [isSubtractingMatcher, h] at hsub
  obtain ⟨m', hm', h'⟩ := any_eq_true.1 hset
  exact ⟨m', hm', by simpa using (Bool.and_eq_true_iff.1 h').2⟩

lemma postingsForMatchers_cursor {sort : List Matcher → List Matcher}
    (hsort : ∀ ms, (sort ms).Perm ms) (hix : ix.Serves c tree fuel ok) (hfuel : 2 ^ 65 + 1 < fuel)
    (hne : ms ≠ []) (hnames : ∀ m ∈ ms, m.name ≠ "") :
    ∃ o, postingsForMatchers rx ix sort ms = .ok o ∧
      o.Cursor tree fuel (matching rx c ms) c.refs ok := by
  obtain ⟨m₀, hm₀⟩ := exists_mem_of_ne_nil ms hne
  obtain ⟨its, based, hbase, hstart, hbased⟩ := @basePostings_spec rx _ _ _ _ _ _ hix hne
  unfold postingsForMatchers
  rw [if_neg fun h => hnames m₀ hm₀ (h.2 m₀ hm₀).1, hbase]
  have hmem (m) : m ∈ sort ms ↔ m ∈ ms := (hsort ms).mem_iff
  rcases hstart.loop hix (fun m hm => (hmem m).1 hm) fun m hm => hnames m ((hmem m).1 hm) with
    ⟨hloop, m, hm, hnone⟩ | ⟨its', notIts', hloop, hcollected⟩
  · -- a matcher that cannot hold
    refine ⟨.empty, by rw [map_nil] at hloop; rw [hloop]; rfl, ?_⟩
    exact empty_cursor (fun ref href => hnone ref href.1 (isSet_of_holds href.2)
      (href.2 m ((hmem m).1 hm))) c.bounds
  refine ⟨_, by rw [map_nil] at hloop; rw [hloop]; rfl, ?_⟩
  have hcursor := foldl_mkWithout_cursor hix hfuel hcollected.notIts_cursor
    (intersectAll_cursor hix (by omega) hcollected.its_cursor)
  have hne' : its' ≠ [] := by
    refine hcollected.its_ne (hbased.imp_right ?_)
    rintro ⟨m, hm, hempty⟩
    exact ⟨m, (hmem m).2 hm, hempty⟩
  refine hcursor.congr fun ref => ⟨?_, ?_⟩
  · rintro ⟨href, hholds⟩
    obtain ⟨hits, hnot⟩ := hcollected.complete ref href
      (fun m hm => hholds m ((hmem m).1 hm)) fun m _ => isSet_of_holds hholds
    exact ⟨⟨hne', hits⟩, hnot⟩
  rintro ⟨⟨-, hits⟩, hnot⟩
  obtain ⟨p, hp⟩ := exists_mem_of_ne_nil its' hne'
  obtain ⟨R, s, hcursor, -⟩ := hcollected.its_cursor p hp
  have href : ref ∈ c.refs := hcursor.sub (hits p hp)
  exact ⟨href, fun m hm => hcollected.sound ref href hits hnot m ((hmem m).2 hm)⟩

/-- `PostingsForMatchers` returns an iterator over the series of which all matchers hold: whatever
calls are made, it moves like a cursor over them, and a walk with `Next` shows each of them once. -/
theorem postingsForMatchers_spec {sort : List Matcher → List Matcher}
    (hsort : ∀ ms, (sort ms).Perm ms) (hfuel : 2 ^ 65 + 1 < fuel) (hix : ix.Serves c tree fuel ok)
    (hne : ms ≠ []) (hnames : ∀ m ∈ ms, m.name ≠ "") :
    ∃ o s, postingsForMatchers rx ix sort ms = .ok o ∧ o.new tree fuel = some s ∧
      (∀ ops, (∀ v, .seek v ∈ ops → 1 ≤ v ∧ ok v) → ∃ outs,
        (o.postings tree fuel).run s ops = some outs ∧
        Cursor.Follows (matching rx c ms) none ops outs) ∧
      ∀ n, c.refs.card < n → ∃ shown : List ℕ,
        (o.postings tree fuel).run s (List.replicate n .next) = some (shown.map some ++ [none]) ∧
        shown.Pairwise (· < ·) ∧ ∀ ref, ref ∈ shown ↔ ref ∈ matching rx c ms := by
  obtain ⟨o, ho, R, s, hcursor, hnew, hs⟩ :=
    @postingsForMatchers_cursor rx _ _ _ _ _ _ _ hsort hix hfuel hne hnames
  have hrun := fun ops hops => hcursor.run_follows ops hops hs
  refine ⟨o, s, ho, hnew, hrun, fun n hn => ?_⟩
  obtain ⟨outs, houts, hfollows⟩ := hrun (replicate n .next) fun v hv => by
    cases eq_of_mem_replicate hv
  classical
  have hU : matching rx c ms = (c.refs.filter (· ∈ matching rx c ms) : Finset ℕ) := by
    ext ref
    simpa using fun h : ref ∈ matching rx c ms => h.1
  rw [hU] at hfollows
  obtain ⟨shown, rfl, hsorted, hmem⟩ := hfollows.next_only (by
    refine lt_of_le_of_lt (Finset.card_filter_le _ _)
      (lt_of_le_of_lt (Finset.card_filter_le _ _) hn))
  refine ⟨shown, houts, hsorted, fun ref => ?_⟩
  rw [hmem]
  simpa [Index.shown] using fun h : ref ∈ matching rx c ms => h.1

end Lists

/-! ### An index in memory -/

/-- A reader that returns sorted lists. -/
def listReader (c : IndexContent) : IndexReader where
  postings name values :=
    if name = "" then .list (c.refs.sort)
    else .list ((c.refs.sort).filter fun ref =>
      values.any fun v => (⟨name, v⟩ : Label) ∈ (c.lset ref).toList)
  postingsForLabelMatching name f :=
    .list ((c.refs.sort).filter fun ref =>
      (c.lset ref).toList.any fun l => l.name = name && f l.value)
  postingsForAllLabelValues name :=
    .list ((c.refs.sort).filter fun ref => (c.lset ref).toList.any fun l => l.name = name)

lemma exists_label_iff (ls : Labels) (name : String) (P : String → Prop) :
    (∃ l ∈ ls.toList, l.name = name ∧ P l.value) ↔ ∃ v, ⟨name, v⟩ ∈ ls.toList ∧ P v := by
  constructor
  · rintro ⟨⟨_, v⟩, hmem, rfl, hP⟩
    exact ⟨v, hmem, hP⟩
  · exact fun ⟨v, hmem, hP⟩ => ⟨⟨name, v⟩, hmem, rfl, hP⟩

lemma listReader_serves (c : IndexContent) (tree : ∀ n, LoserTree (n + 2)) (fuel : ℕ) :
    (listReader c).Serves c tree fuel fun _ => True := by
  have hlist (p : ℕ → Bool) : (Obj.list ((c.refs.sort).filter p)).Cursor tree fuel
      {ref | ref ∈ c.refs ∧ p ref = true} c.refs fun _ => True := by
    have hvalid : ValidRefs ((c.refs.sort).filter p) := by
      refine ⟨(c.refs.sortedLT_sort).pairwise.sublist filter_sublist, fun ref href => ?_⟩
      exact c.bounds ref ((Finset.mem_sort _).1 (mem_of_mem_filter href))
    have hcursor : (Obj.list _).Cursor tree fuel _ _ _ :=
      ⟨_, ⟨_, 0⟩, listPostings_isCursor hvalid, rfl, ListAt.fresh hvalid⟩
    exact (hcursor.congr (by simp)).mono (fun ref href => (Finset.mem_sort _).1
      (mem_of_mem_filter href)) c.bounds fun _ _ => trivial
  refine ⟨fun _ _ => trivial, ?_, fun {name} hname values => ?_, fun {name} _ f => ?_,
    fun {name} _ => ?_⟩
  · simpa [listReader, allPostingsKey] using hlist fun _ => true
  · simpa [listReader, hname] using hlist fun ref =>
      values.any fun v => (⟨name, v⟩ : Label) ∈ (c.lset ref).toList
  · have := hlist fun ref => (c.lset ref).toList.any fun l => l.name = name && f l.value
    simp only [any_eq_true, Bool.and_eq_true, decide_eq_true_eq,
      exists_label_iff _ name (f · = true)] at this
    exact this
  · have := hlist fun ref => (c.lset ref).toList.any fun l => l.name = name
    have hiff (ls : Labels) := exists_label_iff ls name fun _ => True
    simp only [and_true] at hiff
    simp only [any_eq_true, decide_eq_true_eq, hiff] at this
    exact this

section Literals

/-- Three series, of which the second has no label `b`. -/
def threeSeries : IndexContent where
  refs := {1, 2, 3}
  lset ref :=
    if ref = 1 then ⟨⟨[⟨"a", "1"⟩, ⟨"b", "x"⟩], by decide, by decide⟩, by decide, by decide⟩
    else if ref = 2 then ⟨⟨[⟨"a", "1"⟩], by decide, by decide⟩, by decide, by decide⟩
    else ⟨⟨[⟨"a", "2"⟩, ⟨"b", "y"⟩], by decide, by decide⟩, by decide, by decide⟩
  bounds := by decide

/-- `{a="1", b!="x"}` selects the series that has no label `b`. -/
theorem postingsForMatchers_spec_three : ∃ o s,
    postingsForMatchers literals (listReader threeSeries) id
      [⟨.matchEqual, "a", "1"⟩, ⟨.matchNotEqual, "b", "x"⟩] = .ok o ∧
    o.new argminTree (2 ^ 66) = some s ∧ ∃ shown : List ℕ,
      (o.postings argminTree (2 ^ 66)).run s (List.replicate 4 .next) =
        some (shown.map some ++ [none]) ∧ ∀ ref, ref ∈ shown ↔ ref = 2 := by
  obtain ⟨o, s, ho, hs, -, hnext⟩ := @postingsForMatchers_spec literals _ _ _ _ _
    [⟨.matchEqual, "a", "1"⟩, ⟨.matchNotEqual, "b", "x"⟩] id List.Perm.refl (by omega)
    (listReader_serves threeSeries argminTree (2 ^ 66)) (by simp) (by simp)
  obtain ⟨shown, hrun, -, hmem⟩ := hnext 4 (by decide)
  refine ⟨o, s, ho, hs, shown, hrun, fun ref => ?_⟩
  rw [hmem]
  constructor
  · rintro ⟨href, hholds⟩
    have : ref = 1 ∨ ref = 2 ∨ ref = 3 := by simpa [threeSeries] using href
    rcases this with rfl | rfl | rfl
    · exact absurd (hholds _ (mem_cons_of_mem _ mem_cons_self)) (by decide)
    · rfl
    · exact absurd (hholds _ mem_cons_self) (by decide)
  · rintro rfl
    exact ⟨by decide, by decide⟩

end Literals

end Prometheus.Tsdb
