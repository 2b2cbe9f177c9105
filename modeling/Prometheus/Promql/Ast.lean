import Prometheus.Labels.Matcher

/-!
# The syntax tree of a query

The nodes of `promql/parser/ast.go`, without their positions in the query and without the fields
that are only filled in while a query is evaluated. Numbers are the bit patterns of their
`float64`s, durations count nanoseconds, and timestamps count milliseconds.

The nodes below a node are those that `Walk` comes to, child by child (`Below`).
-/

namespace Prometheus.Promql

open Relation

/-- The operators of duration expressions. -/
inductive DurationOp
  | add
  | sub
  | mul
  | div
  | mod
  | pow
  deriving DecidableEq, Repr

/-- An expression for a duration: numbers, and operators with one operand or two. -/
inductive DurationExpr
  | number (val : BitVec 64) (duration : Bool)
  | unary (op : DurationOp) (rhs : DurationExpr) (wrapped : Bool)
  | binary (op : DurationOp) (lhs rhs : DurationExpr) (wrapped : Bool)
  deriving DecidableEq, Repr

/-- The functions that can be used after `@` in place of a timestamp. -/
inductive Preprocessor
  | start
  | «end»
  deriving DecidableEq, Repr

inductive AggregateOp
  | sum
  | avg
  | count
  | min
  | max
  | group
  | stddev
  | stdvar
  | topk
  | bottomk
  | countValues
  | quantile
  | limitk
  | limitRatio
  deriving DecidableEq, Repr

inductive BinaryOp
  | add
  | sub
  | mul
  | div
  | mod
  | pow
  | atan2
  | eqlc
  | neq
  | lte
  | lss
  | gte
  | gtr
  | land
  | lor
  | lunless
  deriving DecidableEq, Repr

inductive UnaryOp
  | add
  | sub
  deriving DecidableEq, Repr

inductive VectorMatchCardinality
  | oneToOne
  | manyToOne
  | oneToMany
  | manyToMany
  deriving DecidableEq, Repr

structure VectorMatching where
  card : VectorMatchCardinality
  matchingLabels : List String
  on : Bool
  «include» : List String
  deriving DecidableEq, Repr

/-- The `offset` and `@` modifiers, which vector selectors and subqueries can have. -/
structure Modifiers where
  originalOffset : ℤ
  originalOffsetExpr : Option DurationExpr
  timestamp : Option ℤ
  startOrEnd : Option Preprocessor
  deriving DecidableEq, Repr

structure VectorSelector extends Modifiers where
  name : String
  labelMatchers : List Tsdb.Matcher
  bypassEmptyMatcherCheck : Bool

/-- The fields of a `SubqueryExpr` other than its expression. -/
structure Subquery extends Modifiers where
  range : ℤ
  rangeExpr : Option DurationExpr
  step : ℤ
  stepExpr : Option DurationExpr
  deriving DecidableEq, Repr

inductive Expr
  | aggregate (op : AggregateOp) (expr : Expr) (param : Option Expr) (grouping : List String)
      (without : Bool)
  | binary (op : BinaryOp) (lhs rhs : Expr) (vectorMatching : Option VectorMatching)
      (returnBool : Bool)
  | call (func : String) (args : List Expr)
  | matrixSelector (vectorSelector : VectorSelector) (range : ℤ) (rangeExpr : Option DurationExpr)
  | subquery (expr : Expr) (sub : Subquery)
  | number (val : BitVec 64) (duration : Bool)
  | paren (expr : Expr)
  | string (val : String)
  | unary (op : UnaryOp) (expr : Expr)
  | stepInvariant (expr : Expr)
  | vectorSelector (vs : VectorSelector)

namespace Expr

section Induction

variable {P : Expr → Prop}
  (aggregate : ∀ op e param grouping without, P e → (∀ p ∈ param, P p) →
    P (.aggregate op e param grouping without))
  (binary : ∀ op lhs rhs matching returnBool, P lhs → P rhs →
    P (.binary op lhs rhs matching returnBool))
  (call : ∀ func args, (∀ a ∈ args, P a) → P (.call func args))
  (matrixSelector : ∀ vs range rangeExpr, P (.matrixSelector vs range rangeExpr))
  (subquery : ∀ e sub, P e → P (.subquery e sub))
  (number : ∀ val duration, P (.number val duration))
  (paren : ∀ e, P e → P (.paren e))
  (string : ∀ val, P (.string val))
  (unary : ∀ op e, P e → P (.unary op e))
  (stepInvariant : ∀ e, P e → P (.stepInvariant e))
  (vectorSelector : ∀ vs, P (.vectorSelector vs))

include aggregate binary call matrixSelector subquery number paren string unary stepInvariant
  vectorSelector

/-- Induction with the hypothesis for every argument of a call, and for the parameter of an
aggregation if it has one. -/
@[elab_as_elim, induction_eliminator]
lemma induction (e : Expr) : P e := by
  refine @Expr.rec P (fun param => ∀ p ∈ param, P p) (fun args => ∀ a ∈ args, P a)
    ?_ ?_ call matrixSelector ?_ number paren string unary stepInvariant vectorSelector
    ?_ ?_ ?_ ?_ e
  · exact aggregate
  · exact binary
  · exact subquery
  · simp
  · rintro p hp x ⟨⟩
    exact hp
  · simp
  · intro a args ha hargs
    exact List.forall_mem_cons.2 ⟨ha, hargs⟩

end Induction

/-- `Children`. -/
def children : Expr → List Expr
  | aggregate _ e param _ _ => e :: param.toList
  | binary _ lhs rhs _ _ => [lhs, rhs]
  | call _ args => args
  | matrixSelector vs _ _ => [.vectorSelector vs]
  | subquery e _ | paren e | unary _ e | stepInvariant e => [e]
  | number _ _ | string _ | vectorSelector _ => []

end Expr

/-! ### The nodes that a walk comes to -/

/-- The nodes that are reached from a node by a walk that goes from each node to the nodes `next`.
-/
def Under (next : Expr → List Expr) : Expr → Expr → Prop :=
  Relation.ReflTransGen fun c e => c ∈ next e

/-- A node is below another if it is the same node, or below one of its children. -/
abbrev Below : Expr → Expr → Prop :=
  Under Expr.children

section Under

variable {next : Expr → List Expr} {n c e : Expr}

lemma Under.refl (e : Expr) : Under next e e :=
  ReflTransGen.refl

lemma Under.child (h : Under next n c) (hc : c ∈ next e) : Under next n e :=
  ReflTransGen.tail h hc

lemma Under.trans (h : Under next n c) (hc : Under next c e) : Under next n e :=
  ReflTransGen.trans h hc

lemma under_iff : Under next n e ↔ n = e ∨ ∃ c ∈ next e, Under next n c := by
  constructor
  · intro h
    obtain h | ⟨c, hc, h⟩ := ReflTransGen.cases_tail h
    · exact .inl h.symm
    · exact .inr ⟨c, h, hc⟩
  · rintro (rfl | ⟨c, h, hc⟩)
    · exact .refl n
    · exact hc.child h

/-- A property of all nodes is one of the root, and of all nodes from its children on. -/
lemma forall_under_iff {P : Expr → Prop} :
    (∀ n, Under next n e → P n) ↔ P e ∧ ∀ c ∈ next e, ∀ n, Under next n c → P n := by
  constructor
  · intro h
    exact ⟨h e (.refl e), fun c hc n hn => h n (hn.child hc)⟩
  · rintro ⟨he, h⟩ n hn
    obtain rfl | ⟨c, hc, hn⟩ := under_iff.1 hn
    · exact he
    · exact h c hc n hn

/-- A map of trees that changes nothing about where the walk goes keeps the properties of all nodes
that it keeps of each. -/
lemma forall_under_map {f : Expr → Expr} (hf : ∀ e, next (f e) = (next e).map f)
    {P : Expr → Prop} (hP : ∀ e, P (f e) ↔ P e) :
    (∀ n, Under next n (f e) → P n) ↔ ∀ n, Under next n e → P n := by
  constructor
  · intro h n hn
    have hstep : ∀ c e, c ∈ next e → f c ∈ next (f e) := by
      intro c e hc
      rw [hf]
      exact List.mem_map_of_mem hc
    exact (hP n).1 (h (f n) (ReflTransGen.lift f hstep _ _ hn))
  · intro h n hn
    -- Every node of the image is the image of a node.
    have himage : ∃ m, Under next m e ∧ n = f m := by
      induction hn using ReflTransGen.head_induction_on with
      | refl => exact ⟨e, .refl e, rfl⟩
      | head hc _ ih =>
        obtain ⟨m, hm, rfl⟩ := ih
        rw [hf] at hc
        obtain ⟨c, hc', rfl⟩ := List.mem_map.1 hc
        exact ⟨c, ReflTransGen.head hc' hm, rfl⟩
    obtain ⟨m, hm, rfl⟩ := himage
    exact (hP m).2 (h m hm)

end Under

end Prometheus.Promql
