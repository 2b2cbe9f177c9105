import Prometheus.Promql.Ast

/-!
# The value of an expression at a step

What the evaluator of `promql/engine.go` computes for an expression at one evaluation time.
Selectors, operators and functions are a parameter (`Interp`). What is fixed is where the evaluation
time goes:

* A selector or a subquery with `@` takes the place of the evaluation time by its own timestamp, and
  its `offset` counts from there.
* Below a subquery, the evaluation times are those of the steps of the subquery.
* Of the functions, only those of `stepTimeFunctions` are told the time of the step.

An expression that is `fixed` has the same value at every step (`eval_const`). If nothing is known
of the interpretation, then no others have (`fixed_of_eval_free`).
-/

namespace Prometheus.Promql

open Modifiers List

/-- `AtModifierUnsafeFunctions` of `promql/functions.go`. -/
def atModifierUnsafeFunctions : List String :=
  ["days_in_month", "day_of_month", "day_of_week", "day_of_year", "hour", "minute", "month", "year",
    "predict_linear", "time", "timestamp"]

/-- The functions that read the time of the step. To those of the table comes `info`, which looks
the info series up at each step without regard to the modifiers of its argument. -/
def stepTimeFunctions : List String :=
  "info" :: atModifierUnsafeFunctions

/-- A duration in milliseconds, rounded towards zero. -/
def durationMilliseconds (d : ℤ) : ℤ :=
  d.tdiv 1000000

/-- The time that is read in place of the evaluation time `t`. -/
def Modifiers.refTime (m : Modifiers) (t : ℤ) : ℤ :=
  m.timestamp.getD t - durationMilliseconds m.originalOffset

lemma refTime_of_isSome {m : Modifiers} (h : m.timestamp.isSome) (t t' : ℤ) :
    m.refTime t = m.refTime t' := by
  obtain ⟨ts, h⟩ := Option.isSome_iff_exists.1 h
  simp only [refTime, h, Option.getD_some]

lemma isSome_of_refTime {m : Modifiers} (h : m.refTime 0 = m.refTime 1) : m.timestamp.isSome := by
  cases hts : m.timestamp with
  | none =>
    simp only [refTime, hts, Option.getD_none] at h
    omega
  | some ts => rfl

/-- What selectors, operators and functions compute. A subquery is given the values of its
expression at all times, of which it takes those of its steps. -/
structure Interp (V : Type) where
  vectorSelector : VectorSelector → ℤ → V
  matrixSelector : VectorSelector → ℤ → ℤ → V
  subquery : Subquery → ℤ → (ℤ → V) → V
  aggregate : AggregateOp → List String → Bool → Option V → V → V
  binary : BinaryOp → Option VectorMatching → Bool → V → V → V
  unary : UnaryOp → V → V
  number : BitVec 64 → V
  string : String → V
  call : String → List V → ℤ → V
  call_const : ∀ {func}, func ∉ stepTimeFunctions →
    ∀ args t t', call func args t = call func args t'

section Eval

variable {V : Type} (I : Interp V)

mutual

/-- The value at the evaluation time `t`. -/
def eval : Expr → ℤ → V
  | .aggregate op e param grouping without, t =>
    I.aggregate op grouping without (evalParam param t) (eval e t)
  | .binary op lhs rhs matching returnBool, t =>
    I.binary op matching returnBool (eval lhs t) (eval rhs t)
  | .call func args, t => I.call func (evalArgs args t) t
  | .matrixSelector vs range _, t => I.matrixSelector vs range (vs.refTime t)
  | .subquery e sub, t => I.subquery sub (sub.refTime t) fun t' => eval e t'
  | .number val _, _ => I.number val
  | .paren e, t => eval e t
  | .string val, _ => I.string val
  | .unary op e, t => I.unary op (eval e t)
  | .stepInvariant e, t => eval e t
  | .vectorSelector vs, t => I.vectorSelector vs (vs.refTime t)

def evalParam : Option Expr → ℤ → Option V
  | none, _ => none
  | some e, t => some (eval e t)

def evalArgs : List Expr → ℤ → List V
  | [], _ => []
  | e :: es, t => eval e t :: evalArgs es t

end

lemma evalArgs_eq (args : List Expr) (t : ℤ) :
    evalArgs I args t = args.map fun e => eval I e t := by
  induction args with
  | nil => rfl
  | cons e es ih => simp only [evalArgs, ih, map_cons]

end Eval

/-! ### Expressions that do not depend on the evaluation time -/

section Fixed

variable (fns : List String)

mutual

/-- On every path down, there is a selector or a subquery with a timestamp before anything that
depends on the evaluation time, which the functions `fns` do. -/
def fixed : Expr → Bool
  | .aggregate _ e param _ _ => fixed e && fixedParam param
  | .binary _ lhs rhs _ _ => fixed lhs && fixed rhs
  | .call func args => !fns.contains func && fixedArgs args
  | .matrixSelector vs _ _ => vs.timestamp.isSome
  | .subquery _ sub => sub.timestamp.isSome
  | .number _ _ | .string _ => true
  | .paren e => fixed e
  | .unary _ e => fixed e
  | .stepInvariant e => fixed e
  | .vectorSelector vs => vs.timestamp.isSome

def fixedParam : Option Expr → Bool
  | none => true
  | some e => fixed e

def fixedArgs : List Expr → Bool
  | [] => true
  | e :: es => fixed e && fixedArgs es

end

lemma fixedParam_iff (param : Option Expr) : fixedParam fns param ↔ ∀ p ∈ param, fixed fns p := by
  cases param <;> simp [fixedParam]

lemma fixedArgs_iff (args : List Expr) : fixedArgs fns args ↔ ∀ a ∈ args, fixed fns a := by
  induction args with
  | nil => simp [fixedArgs]
  | cons e es ih => simp [fixedArgs, ih]

variable {fns}

/-- With fewer functions that depend on the time, more is fixed. -/
lemma fixed_mono {fns' : List String} (hsub : fns' ⊆ fns) {e : Expr} (h : fixed fns e) :
    fixed fns' e := by
  induction e with
  | aggregate op e param grouping without ihe ihp =>
    simp only [fixed, Bool.and_eq_true, fixedParam_iff] at h ⊢
    exact ⟨ihe h.1, fun p hp => ihp p hp (h.2 p hp)⟩
  | binary op lhs rhs matching returnBool ihl ihr =>
    simp only [fixed, Bool.and_eq_true] at h ⊢
    exact ⟨ihl h.1, ihr h.2⟩
  | call func args ih =>
    simp only [fixed, Bool.and_eq_true, fixedArgs_iff, Bool.not_eq_true', contains_eq_mem,
      decide_eq_false_iff_not] at h ⊢
    exact ⟨fun hf => h.1 (hsub hf), fun a ha => ih a ha (h.2 a ha)⟩
  | paren e ih | unary op e ih | stepInvariant e ih => exact ih h
  | matrixSelector | subquery | number | string | vectorSelector => exact h

end Fixed

theorem eval_const {V : Type} (I : Interp V) {e : Expr} (h : fixed stepTimeFunctions e)
    (t t' : ℤ) : eval I e t = eval I e t' := by
  induction e with
  | aggregate op e param grouping without ihe ihp =>
    simp only [fixed, Bool.and_eq_true, fixedParam_iff] at h
    have hp : evalParam I param t = evalParam I param t' := by
      cases param with
      | none => rfl
      | some p => exact congrArg some (ihp p rfl (h.2 p rfl))
    simp only [eval, ihe h.1, hp]
  | binary op lhs rhs matching returnBool ihl ihr =>
    simp only [fixed, Bool.and_eq_true] at h
    simp only [eval, ihl h.1, ihr h.2]
  | call func args ih =>
    simp only [fixed, Bool.and_eq_true, fixedArgs_iff, Bool.not_eq_true', contains_eq_mem,
      decide_eq_false_iff_not] at h
    have hargs : evalArgs I args t = evalArgs I args t' := by
      rw [evalArgs_eq, evalArgs_eq]
      exact map_congr_left fun a ha => ih a ha (h.2 a ha)
    simp only [eval, hargs]
    exact I.call_const h.1 _ t t'
  | matrixSelector vs range rangeExpr =>
    simp only [eval, refTime_of_isSome h t t']
  | subquery e sub ih =>
    -- The expression below may depend on the time: it is only read at the steps of the subquery.
    simp only [eval, refTime_of_isSome h t t']
  | vectorSelector vs =>
    simp only [eval, refTime_of_isSome h t t']
  | number | string => rfl
  | paren e ih | stepInvariant e ih => exact ih h
  | unary op e ih => simp only [eval, ih h]

/-! ### The interpretation that keeps everything apart -/

/-- A value that records how it was computed. -/
inductive Term
  | vectorSelector (vs : VectorSelector) (t : ℤ)
  | matrixSelector (vs : VectorSelector) (range t : ℤ)
  | subquery (sub : Subquery) (t : ℤ) (inner : ℤ → Term)
  | aggregate (op : AggregateOp) (grouping : List String) (without : Bool) (param : Option Term)
      (e : Term)
  | binary (op : BinaryOp) (matching : Option VectorMatching) (returnBool : Bool) (lhs rhs : Term)
  | unary (op : UnaryOp) (e : Term)
  | number (val : BitVec 64)
  | string (val : String)
  | call (func : String) (args : List Term) (t : ℤ)

def Interp.free : Interp Term where
  vectorSelector := .vectorSelector
  matrixSelector := .matrixSelector
  subquery := .subquery
  aggregate := .aggregate
  binary := .binary
  unary := .unary
  number := .number
  string := .string
  call func args t := .call func args (if func ∈ stepTimeFunctions then t else 0)
  call_const := by
    intro func h args t t'
    rw [if_neg h, if_neg h]

lemma fixed_of_eval_free {e : Expr} (h : eval .free e 0 = eval .free e 1) :
    fixed stepTimeFunctions e := by
  induction e with
  | aggregate op e param grouping without ihe ihp =>
    simp only [eval, Interp.free, Term.aggregate.injEq, true_and] at h
    simp only [fixed, Bool.and_eq_true, fixedParam_iff]
    refine ⟨ihe h.2, ?_⟩
    rintro p rfl
    exact ihp p rfl (Option.some.inj h.1)
  | binary op lhs rhs matching returnBool ihl ihr =>
    simp only [eval, Interp.free, Term.binary.injEq, true_and] at h
    simp only [fixed, Bool.and_eq_true]
    exact ⟨ihl h.1, ihr h.2⟩
  | call func args ih =>
    simp only [eval, Interp.free, Term.call.injEq, true_and, evalArgs_eq] at h
    simp only [fixed, Bool.and_eq_true, fixedArgs_iff, Bool.not_eq_true', contains_eq_mem,
      decide_eq_false_iff_not]
    constructor
    · intro hf
      rw [if_pos hf, if_pos hf] at h
      exact absurd h.2 (by decide)
    · intro a ha
      exact ih a ha (map_inj_left.1 h.1 a ha)
  | matrixSelector vs range rangeExpr =>
    simp only [eval, Interp.free, Term.matrixSelector.injEq, true_and] at h
    exact isSome_of_refTime h
  | subquery e sub ih =>
    simp only [eval, Interp.free, Term.subquery.injEq, true_and, and_true] at h
    exact isSome_of_refTime h
  | vectorSelector vs =>
    simp only [eval, Interp.free, Term.vectorSelector.injEq, true_and] at h
    exact isSome_of_refTime h
  | number | string => rfl
  | paren e ih | stepInvariant e ih => exact ih h
  | unary op e ih =>
    simp only [eval, Interp.free, Term.unary.injEq, true_and] at h
    exact ih h

/-- Exactly the fixed expressions have one value at all steps, whatever the interpretation. -/
lemma fixed_iff_eval_const {e : Expr} :
    fixed stepTimeFunctions e ↔ ∀ (V : Type) (I : Interp V) (t t' : ℤ), eval I e t = eval I e t' :=
  ⟨fun h _ I t t' => eval_const I h t t', fun h => fixed_of_eval_free (h Term .free 0 1)⟩

end Prometheus.Promql
