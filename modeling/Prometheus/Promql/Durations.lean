import Prometheus.Lib.Float64
import Prometheus.Promql.Ast

/-!
# Duration expressions

`promql/durations.go`. Ranges, steps and offsets can be given by expressions, and a visitor computes
them before a query is evaluated. The arithmetic of `float64`s is a parameter.

The visitor changes nothing but durations, so a tree without its durations (`strip`) is left as it
is (`strip_visitDurations`).
-/

namespace Prometheus.Promql

inductive DurationError
  | notPositive
  | outOfRange
  | divisionByZero
  | moduloByZero
  deriving DecidableEq, Repr

/-- The operations on `float64` that duration expressions are made of, and the conversion of a
number of milliseconds to a duration. -/
structure FloatArith where
  add : BitVec 64 → BitVec 64 → BitVec 64
  sub : BitVec 64 → BitVec 64 → BitVec 64
  mul : BitVec 64 → BitVec 64 → BitVec 64
  div : BitVec 64 → BitVec 64 → BitVec 64
  mod : BitVec 64 → BitVec 64 → BitVec 64
  pow : BitVec 64 → BitVec 64 → BitVec 64
  toDuration : BitVec 64 → ℤ

/-- `1<<63 - 1` as a `float64`, which is the power of two. -/
def maxDuration : BitVec 64 :=
  0x43E0000000000000#64

def evaluateDurationExpr (fl : FloatArith) : DurationExpr → Except DurationError (BitVec 64)
  | .number val _ => .ok val
  | .unary op rhs _ => do
    let rhs ← evaluateDurationExpr fl rhs
    apply op true 0#64 rhs
  | .binary op lhs rhs _ => do
    let lhs ← evaluateDurationExpr fl lhs
    let rhs ← evaluateDurationExpr fl rhs
    apply op false lhs rhs
where
  /-- The operator, where the left operand is zero if there is none. -/
  apply (op : DurationOp) (unary : Bool) (lhs rhs : BitVec 64) : Except DurationError (BitVec 64) :=
    match op with
    | .add => .ok (fl.add lhs rhs)
    | .sub => .ok (if unary then Float64.neg rhs else fl.sub lhs rhs)
    | .mul => .ok (fl.mul lhs rhs)
    | .div => if Float64.eq rhs 0#64 then .error .divisionByZero else .ok (fl.div lhs rhs)
    | .mod => if Float64.eq rhs 0#64 then .error .moduloByZero else .ok (fl.mod lhs rhs)
    | .pow => .ok (fl.pow lhs rhs)

def calculateDuration (fl : FloatArith) (expr : DurationExpr) (allowedNegative : Bool) :
    Except DurationError ℤ := do
  let duration ← evaluateDurationExpr fl expr
  if Float64.le duration 0#64 && !allowedNegative then
    throw .notPositive
  if Float64.lt maxDuration duration || Float64.lt duration (Float64.neg maxDuration) then
    throw .outOfRange
  return fl.toDuration duration

/-- The duration that is given by an expression, or else the one that is there. -/
def durationOr (fl : FloatArith) (expr : Option DurationExpr) (allowedNegative : Bool) (d : ℤ) :
    Except DurationError ℤ :=
  match expr with
  | none => .ok d
  | some expr => calculateDuration fl expr allowedNegative

section Durations

variable (fl : FloatArith)

def VectorSelector.visitDuration (vs : VectorSelector) : Except DurationError VectorSelector := do
  let offset ← durationOr fl vs.originalOffsetExpr true vs.originalOffset
  return { vs with originalOffset := offset }

def Subquery.visitDuration (sub : Subquery) : Except DurationError Subquery := do
  let offset ← durationOr fl sub.originalOffsetExpr true sub.originalOffset
  let step ← durationOr fl sub.stepExpr false sub.step
  let range ← durationOr fl sub.rangeExpr false sub.range
  return { sub with
    originalOffset := offset
    step := step
    range := range }

mutual

/-- The walk of a `durationVisitor`, which visits a node before its children. -/
def visitDurations : Expr → Except DurationError Expr
  | .aggregate op e param grouping without => do
    let e ← visitDurations e
    let param ← visitParam param
    return .aggregate op e param grouping without
  | .binary op lhs rhs matching returnBool => do
    let lhs ← visitDurations lhs
    let rhs ← visitDurations rhs
    return .binary op lhs rhs matching returnBool
  | .call func args => do
    let args ← visitArgs args
    return .call func args
  | .matrixSelector vs range rangeExpr => do
    let range ← durationOr fl rangeExpr false range
    let vs ← vs.visitDuration fl
    return .matrixSelector vs range rangeExpr
  | .subquery e sub => do
    let sub ← sub.visitDuration fl
    let e ← visitDurations e
    return .subquery e sub
  | .number val duration => return .number val duration
  | .paren e => do
    let e ← visitDurations e
    return .paren e
  | .string val => return .string val
  | .unary op e => do
    let e ← visitDurations e
    return .unary op e
  | .stepInvariant e => do
    let e ← visitDurations e
    return .stepInvariant e
  | .vectorSelector vs => do
    let vs ← vs.visitDuration fl
    return .vectorSelector vs

def visitParam : Option Expr → Except DurationError (Option Expr)
  | none => return none
  | some e => do
    let e ← visitDurations e
    return some e

def visitArgs : List Expr → Except DurationError (List Expr)
  | [] => return []
  | e :: es => do
    let e ← visitDurations e
    let es ← visitArgs es
    return e :: es

end

end Durations

/-! ### What the visitor leaves alone -/

/-- A tree without its durations. -/
def Modifiers.strip (m : Modifiers) : Modifiers :=
  { m with originalOffset := 0 }

def VectorSelector.strip (vs : VectorSelector) : VectorSelector :=
  { vs with toModifiers := vs.toModifiers.strip }

def Subquery.strip (sub : Subquery) : Subquery :=
  { sub with
    toModifiers := sub.toModifiers.strip
    range := 0
    step := 0 }

mutual

def strip : Expr → Expr
  | .aggregate op e param grouping without =>
    .aggregate op (strip e) (stripParam param) grouping without
  | .binary op lhs rhs matching returnBool =>
    .binary op (strip lhs) (strip rhs) matching returnBool
  | .call func args => .call func (stripArgs args)
  | .matrixSelector vs _ rangeExpr => .matrixSelector vs.strip 0 rangeExpr
  | .subquery e sub => .subquery (strip e) sub.strip
  | .number val duration => .number val duration
  | .paren e => .paren (strip e)
  | .string val => .string val
  | .unary op e => .unary op (strip e)
  | .stepInvariant e => .stepInvariant (strip e)
  | .vectorSelector vs => .vectorSelector vs.strip

def stripParam : Option Expr → Option Expr
  | none => none
  | some e => some (strip e)

def stripArgs : List Expr → List Expr
  | [] => []
  | e :: es => strip e :: stripArgs es

end

lemma stripArgs_eq (args : List Expr) : stripArgs args = args.map strip := by
  induction args with
  | nil => rfl
  | cons e es ih => rw [stripArgs, ih, List.map_cons]

lemma children_strip (e : Expr) : (strip e).children = e.children.map strip := by
  cases e with
  | aggregate op e param grouping without => cases param <;> rfl
  | call func args => exact stripArgs_eq args
  | _ => rfl

lemma bind_eq_ok {ε α β : Type} {x : Except ε α} {f : α → Except ε β} {b : β} :
    x >>= f = .ok b ↔ ∃ a, x = .ok a ∧ f a = .ok b := by
  cases x with
  | error err => exact ⟨nofun, nofun⟩
  | ok a => exact ⟨fun h => ⟨a, rfl, h⟩, by rintro ⟨_, ⟨⟩, h⟩; exact h⟩

section Visit

variable {fl : FloatArith}

lemma VectorSelector.strip_visitDuration {vs vs' : VectorSelector}
    (h : vs.visitDuration fl = .ok vs') : vs'.strip = vs.strip := by
  obtain ⟨_, -, h⟩ := bind_eq_ok.1 h
  cases h
  rfl

lemma Subquery.strip_visitDuration {sub sub' : Subquery}
    (h : sub.visitDuration fl = .ok sub') : sub'.strip = sub.strip := by
  obtain ⟨_, -, h⟩ := bind_eq_ok.1 h
  obtain ⟨_, -, h⟩ := bind_eq_ok.1 h
  obtain ⟨_, -, h⟩ := bind_eq_ok.1 h
  cases h
  rfl

lemma strip_visitArgs {args args' : List Expr}
    (ih : ∀ a ∈ args, ∀ a', visitDurations fl a = .ok a' → strip a' = strip a)
    (h : visitArgs fl args = .ok args') : stripArgs args' = stripArgs args := by
  induction args generalizing args' with
  | nil =>
    cases h
    rfl
  | cons a as ihas =>
    obtain ⟨a', ha, h⟩ := bind_eq_ok.1 h
    obtain ⟨as', has, h⟩ := bind_eq_ok.1 h
    cases h
    rw [stripArgs, stripArgs, ih a List.mem_cons_self a' ha,
      ihas (fun b hb => ih b (List.mem_cons_of_mem a hb)) has]

/-- The visitor changes nothing but durations. -/
theorem strip_visitDurations {e e' : Expr} (h : visitDurations fl e = .ok e') :
    strip e' = strip e := by
  induction e generalizing e' with
  | aggregate op e param grouping without ihe ihp =>
    obtain ⟨_, he, h⟩ := bind_eq_ok.1 h
    obtain ⟨param', hparam, h⟩ := bind_eq_ok.1 h
    cases h
    have hstrip : stripParam param' = stripParam param := by
      cases param with
      | none =>
        cases hparam
        rfl
      | some p =>
        obtain ⟨_, hp, hparam⟩ := bind_eq_ok.1 hparam
        cases hparam
        exact congrArg some (ihp p rfl hp)
    rw [strip, strip, ihe he, hstrip]
  | binary op lhs rhs matching returnBool ihl ihr =>
    obtain ⟨_, hl, h⟩ := bind_eq_ok.1 h
    obtain ⟨_, hr, h⟩ := bind_eq_ok.1 h
    cases h
    rw [strip, strip, ihl hl, ihr hr]
  | call func args ih =>
    obtain ⟨_, hargs, h⟩ := bind_eq_ok.1 h
    cases h
    rw [strip, strip, strip_visitArgs (fun a ha a' => ih a ha) hargs]
  | matrixSelector vs range rangeExpr =>
    obtain ⟨_, -, h⟩ := bind_eq_ok.1 h
    obtain ⟨_, hvs, h⟩ := bind_eq_ok.1 h
    cases h
    rw [strip, strip, VectorSelector.strip_visitDuration hvs]
  | subquery e sub ih =>
    obtain ⟨_, hsub, h⟩ := bind_eq_ok.1 h
    obtain ⟨_, he, h⟩ := bind_eq_ok.1 h
    cases h
    rw [strip, strip, ih he, Subquery.strip_visitDuration hsub]
  | vectorSelector vs =>
    obtain ⟨_, hvs, h⟩ := bind_eq_ok.1 h
    cases h
    rw [strip, strip, VectorSelector.strip_visitDuration hvs]
  | number | string =>
    cases h
    rfl
  | paren e ih | unary op e ih | stepInvariant e ih =>
    obtain ⟨_, he, h⟩ := bind_eq_ok.1 h
    cases h
    rw [strip, strip, ih he]

end Visit

end Prometheus.Promql
