import Mathlib

/-!
# Label matchers

`Matcher` of `model/labels/matcher.go`: a condition on the value of one label. A series without the
label is given the empty string.
-/

namespace Prometheus.Tsdb

inductive MatchType
  | matchEqual
  | matchNotEqual
  | matchRegexp
  | matchNotRegexp
  deriving DecidableEq, Repr

structure Matcher where
  type : MatchType
  name : String
  value : String

/-- Regular expressions, anchored at both ends: whether a pattern matches a string, and the strings
it matches where they are known to be few. -/
structure Regexps where
  matchString : String → String → Bool
  setMatches : String → List String
  mem_setMatches : ∀ {re}, setMatches re ≠ [] → ∀ s, s ∈ setMatches re ↔ matchString re s = true
  /-- `.` matches newlines, too. -/
  dotStar : ∀ s, matchString ".*" s = true
  dotPlus : ∀ s, matchString ".+" s = true ↔ s ≠ ""
  empty : ∀ s, matchString "" s = true ↔ s = ""

/-- Regular expressions that are literals, but for the two patterns. -/
def literals : Regexps where
  matchString re s := if re = ".*" then true else if re = ".+" then s ≠ "" else s = re
  setMatches re := if re = ".*" ∨ re = ".+" then [] else [re]
  mem_setMatches := by
    intro re h s
    split_ifs at h ⊢ with hre <;> simp_all
  dotStar := by simp
  dotPlus := by simp
  empty := by simp

namespace Matcher

variable (rx : Regexps)

variable (m : Matcher)

def «matches» (s : String) : Bool :=
  match m.type with
  | .matchEqual => s = m.value
  | .matchNotEqual => s ≠ m.value
  | .matchRegexp => rx.matchString m.value s
  | .matchNotRegexp => !rx.matchString m.value s

/-- A matcher that matches the opposite. -/
def inverse : Matcher :=
  match m.type with
  | .matchEqual => { m with type := .matchNotEqual }
  | .matchNotEqual => { m with type := .matchEqual }
  | .matchRegexp => { m with type := .matchNotRegexp }
  | .matchNotRegexp => { m with type := .matchRegexp }

def setMatches : List String :=
  match m.type with
  | .matchEqual | .matchNotEqual => []
  | .matchRegexp | .matchNotRegexp => rx.setMatches m.value

/-- `m.Type == labels.MatchNotEqual || m.Type == labels.MatchNotRegexp`. -/
def isNot : Bool :=
  m.type = .matchNotEqual || m.type = .matchNotRegexp

@[simp] lemma name_inverse : m.inverse.name = m.name := by
  unfold inverse
  split <;> rfl

lemma matches_inverse (s : String) : m.inverse.matches rx s = !m.matches rx s := by
  obtain ⟨type, name, value⟩ := m
  cases type with
  | matchEqual => exact decide_not
  | matchNotEqual => exact (Bool.not_not _).symm.trans (congrArg (! ·) decide_not.symm)
  | matchRegexp => rfl
  | matchNotRegexp => exact (Bool.not_not _).symm

end Matcher

end Prometheus.Tsdb
